import ServerKit.Websocket.Bounds
import ServerKit.Websocket.Decoding
import ServerKit.Websocket.Lines
import ServerKit.RingBuffer.Refinement
import ServerKit.RingBuffer.Bounds
import ServerKit.RingBuffer.ResetFree
import ServerKit.RingBuffer.Chunking
import ServerKit.Ringbuf.Limit
import ServerKit.Ringbuf.Overrun
import ServerKit.DBPool.Exclusive
import ServerKit.Threadpool.Completion
import ServerKit.Deadlock.Missed
import ServerKit.Deadlock.FalseAlarm
import ServerKit.Deadlock.Owners
import ServerKit.Deadlock.Bounds
import ServerKit.Deadlock.Depth
import ServerKit.Deadlock.Edges
import ServerKit.Deadlock.Undo
import ServerKit.Mempool.Atomic
import ServerKit.Mempool.Reset
import ServerKit.Mempool.Recorded
import ServerKit.Mempool.NodeLayout
import ServerKit.Protocal.Ownership
import ServerKit.Protocal.Send
import ServerKit.Protocal.Bsm
import ServerKit.Protocal.Register
import ServerKit.Protocal.Relay
import ServerKit.Protocal.Capacity
import ServerKit.Reactor.Echo
import ServerKit.Reactor.Exhaustion
import ServerKit.NetFamily.Frame
import ServerKit.Memleak.Records
import ServerKit.Memleak.Hooks
import ServerKit.CJson.Accepts
import ServerKit.CJson.Buffered
import ServerKit.CJson.Chain
import ServerKit.CJson.Duplicate
import ServerKit.CJson.Edits
import ServerKit.CJson.Filled
import ServerKit.CJson.Messages
import ServerKit.CJson.Minify
import ServerKit.CJson.MinifyJson
import ServerKit.Reactor.Destory
import ServerKit.Threadpool.Stop
import ServerKit.Mempool.Destory
import ServerKit.Mempool.Rollback
import ServerKit.Websocket.Contained
