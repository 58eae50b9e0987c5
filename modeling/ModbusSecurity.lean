import ModbusSecurity.AccessTraces
import ModbusSecurity.AdmissionWindow
import ModbusSecurity.BitPacking
import ModbusSecurity.BlockStreams
import ModbusSecurity.BufferedLines
import ModbusSecurity.BurstDetection
import ModbusSecurity.BurstErrors
import ModbusSecurity.ByteStrings
import ModbusSecurity.ConsoleMenu
import ModbusSecurity.CounterAccounting
import ModbusSecurity.CounterDurability
import ModbusSecurity.CounterFile
import ModbusSecurity.CounterMode
import ModbusSecurity.CounterRecords
import ModbusSecurity.CounterReload
import ModbusSecurity.CounterState
import ModbusSecurity.CtrWrapper
import ModbusSecurity.CyclicCounters
import ModbusSecurity.DemoLink
import ModbusSecurity.DirectoryPaths
import ModbusSecurity.EncoderImage
import ModbusSecurity.ExchangeEffects
import ModbusSecurity.FrameAcceptance
import ModbusSecurity.FrameLengths
import ModbusSecurity.FrameRejection
import ModbusSecurity.HmacLsh
import ModbusSecurity.JournaledCounter
import ModbusSecurity.KeyFileLines
import ModbusSecurity.KeyLineGrammar
import ModbusSecurity.KeyStore
import ModbusSecurity.KeystreamFreshness
import ModbusSecurity.LaunchPaths
import ModbusSecurity.LeaCipher
import ModbusSecurity.LeaCore
import ModbusSecurity.LeaNeon
import ModbusSecurity.LeaOnline
import ModbusSecurity.LockstepLink
import ModbusSecurity.LshCompression
import ModbusSecurity.LshFunction
import ModbusSecurity.LshHash
import ModbusSecurity.ModbusPdu
import ModbusSecurity.ModbusRegisters
import ModbusSecurity.ModbusSelfTest
import ModbusSecurity.ModeSeparation
import ModbusSecurity.MultidropBus
import ModbusSecurity.OnlineStreams
import ModbusSecurity.OutputWrites
import ModbusSecurity.RecvDemo
import ModbusSecurity.ReflectedCrc
import ModbusSecurity.RegisterPrograms
import ModbusSecurity.ReplayWindow
import ModbusSecurity.RequestAgreement
import ModbusSecurity.RequestDecisions
import ModbusSecurity.RestartHistory
import ModbusSecurity.ScannedFields
import ModbusSecurity.SecureDemo
import ModbusSecurity.SecureFraming
import ModbusSecurity.SelfTestAlarms
import ModbusSecurity.SelfTestEffects
import ModbusSecurity.SendDemo
import ModbusSecurity.SerialLine
import ModbusSecurity.ServerAccesses
import ModbusSecurity.TableListings
import ModbusSecurity.TextStreams
import ModbusSecurity.TimedStreams
import ModbusSecurity.TornCounterFile
import ModbusSecurity.TransitionRuns
import ModbusSecurity.TransparentExchange
import ModbusSecurity.UnsentRequests
