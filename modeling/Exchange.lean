import Exchange.Book.Cancel
import Exchange.Book.Conservation
import Exchange.Book.Depth
import Exchange.Book.Independence
import Exchange.Book.Mirror
import Exchange.Book.Priority
import Exchange.Book.Splitting
import Exchange.Book.Termination
import Exchange.Book.Uncrossed
import Exchange.Book.Waiting
import Exchange.Machine.Refinement
import Exchange.NetworkUtils
import Exchange.Processor.Faults
import Exchange.Processor.Isolation
import Exchange.Processor.Rejections
import Exchange.Processor.Table
import Exchange.Processor.Validity
import Exchange.Serializer.Reencode
import Exchange.Serializer.RoundTrip
import Exchange.Server.Accounts
import Exchange.Server.Backlog
import Exchange.Server.BackPressure
import Exchange.Server.Consistency
import Exchange.Server.Decoders
import Exchange.Server.Disconnects
import Exchange.Server.Misdelivery
import Exchange.Server.Outbound
import Exchange.Server.Pipelining
import Exchange.Server.Reference
import Exchange.SPSCRingBuffer
import Exchange.ThreadSafeQueue
