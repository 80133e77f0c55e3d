import EspClock.Lib.Memory
import EspClock.Lib.Decimal
import EspClock.Lib.Run
import EspClock.Lib.Framing
import EspClock.Console.Line
import EspClock.FileServer.Receive
import EspClock.FileServer.Reassembly
import EspClock.FileServer.Frames
import EspClock.FileServer.Session
import EspClock.FileServer.Echo
import EspClock.Console.Inject
import EspClock.FileServer.Lifecycle
import EspClock.Led.Strip
import EspClock.Led.Ticker
import EspClock.Led.TickerBounds
import EspClock.Led.Scroll
import EspClock.Led.StripBounds
import EspClock.Upload.Client
import EspClock.Upload.Transfer
import EspClock.Upload.Content
import EspClock.Dht.Sensor
import EspClock.Dht.Readings
import EspClock.Lib.Reads
import EspClock.Mqtt.Message
import EspClock.Mqtt.Client
import EspClock.Mqtt.Frame
import EspClock.Mqtt.InputBounds
import EspClock.Mqtt.Establish
import EspClock.Mqtt.OutBuffer
import EspClock.Mqtt.Packet
import EspClock.Mqtt.Segments
import EspClock.Mqtt.Answers
import EspClock.Mqtt.Completion
import EspClock.Lib.Nor
import EspClock.Lib.Scan
import EspClock.Romfs.Wofs
import EspClock.Romfs.Layout
import EspClock.Romfs.Writing
import EspClock.Romfs.Room
import EspClock.Romfs.Isolation
import EspClock.Romfs.Files
import EspClock.Romfs.Represents
import EspClock.Romfs.Refinement
import EspClock.Lib.Scatter
import EspClock.Led.Letters
import EspClock.Led.Display
import EspClock.Flash.Partition
import EspClock.Flash.Access
import EspClock.Flash.Failures
import EspClock.Lib.RingBuffer
import EspClock.Uart.Receive
import EspClock.Console.Poll
import EspClock.Console.Typed
import EspClock.Console.LineBounds
import EspClock.Smart.Detect
import EspClock.Smart.Bounds
import EspClock.Pwm.Schedule
import EspClock.Pwm.Buffering
import EspClock.Lib.RefTable
import EspClock.Net.Sockets
import EspClock.Net.Table
import EspClock.Led.Arguments
import EspClock.Led.Wire
import EspClock.Lib.Bits
import EspClock.Dht.Waveform
import EspClock.Dht.CacheAge
import EspClock.FileServer.Acknowledge
import EspClock.FileServer.SizeField
import EspClock.FileServer.Isolation
import EspClock.Mqtt.Builder
import EspClock.Mqtt.RoundTrip
import EspClock.Mqtt.Delivery
import EspClock.Mqtt.Connect
import EspClock.Mqtt.BuilderBounds
import EspClock.Mqtt.Subscription
import EspClock.Mqtt.LengthField
import EspClock.Mqtt.Repetition
import EspClock.Mqtt.TableSubscribe
import EspClock.Romfs.OpenFailure
import EspClock.Romfs.ScanEnds
import EspClock.Romfs.Listing
import EspClock.Lib.Cut
import EspClock.Console.RawFraming
import EspClock.Uart.RingBounds
import EspClock.Script.Number
import EspClock.Script.K30
import EspClock.Pwm.Steps
import EspClock.Pwm.Waveform
import EspClock.Pwm.Channels
import EspClock.Pwm.Parameters
import EspClock.Tmr.Rtc
import EspClock.Smart.Check
import EspClock.Lib.Pattern
import EspClock.Script.Redis
import EspClock.Script.Http
import EspClock.Script.Chunking
import EspClock.Mqtt.MessageIds
import EspClock.Lib.Piece
import EspClock.File.Read
import EspClock.Upload.Replies
import EspClock.Lua.Lexer
import EspClock.Lua.Calls
import EspClock.File.Write
import EspClock.Upload.Serial
import EspClock.Lib.Branching
import EspClock.Lib.Crc
import EspClock.OneWire.Wire
import EspClock.OneWire.Driver
import EspClock.OneWire.Slots
import EspClock.OneWire.Bits
import EspClock.OneWire.Commands
import EspClock.OneWire.Search
import EspClock.OneWire.Enumeration
import EspClock.OneWire.Checksum
import EspClock.OneWire.Rounds
import EspClock.I2c.Bus
import EspClock.I2c.Master
import EspClock.I2c.Bytes
import EspClock.I2c.Calls
import EspClock.I2c.Transfers
import EspClock.I2c.Recovery
import EspClock.Upgrade.Chunks
import EspClock.Upgrade.Download
import EspClock.Upgrade.Image
import EspClock.Bytecode.Dump
import EspClock.Bytecode.RoundTrip
import EspClock.Bytecode.Compile
