import FpgaSynthesizer.RegisterBits
import FpgaSynthesizer.SynthCi
import FpgaSynthesizer.ToneProgram
import FpgaSynthesizer.ToneCalls
import FpgaSynthesizer.ToneWindow
import FpgaSynthesizer.ToneAgreement
import FpgaSynthesizer.ToneRuns
import FpgaSynthesizer.ToneShift
import FpgaSynthesizer.ToneLeds
import FpgaSynthesizer.ToneReset
import FpgaSynthesizer.ToneRange
import FpgaSynthesizer.Mailbox
import FpgaSynthesizer.Ps2Ci
import FpgaSynthesizer.Ps2Delivery
import FpgaSynthesizer.Ps2Handshake
import FpgaSynthesizer.SpacedStarts
import FpgaSynthesizer.KeyPath
import FpgaSynthesizer.ToneKeys
import FpgaSynthesizer.ToneCodes
import FpgaSynthesizer.ToneRepeats
import FpgaSynthesizer.Polling
import FpgaSynthesizer.PollingSteps
import FpgaSynthesizer.GetKey
import FpgaSynthesizer.GetKeyBytes
import FpgaSynthesizer.GetKeySteps
import FpgaSynthesizer.Ps2
import FpgaSynthesizer.Ps2Frames
import FpgaSynthesizer.Ps2Slices
import FpgaSynthesizer.Sampling
import FpgaSynthesizer.PolledMailbox
import FpgaSynthesizer.Ps2Board
import FpgaSynthesizer.Keyboard
import FpgaSynthesizer.Accumulator
import FpgaSynthesizer.Voices
import FpgaSynthesizer.VoiceOutputs
import FpgaSynthesizer.RampPhase
import FpgaSynthesizer.MixerRange
import FpgaSynthesizer.IdleVoices
import FpgaSynthesizer.WaveHistory
import FpgaSynthesizer.NoteFrequency
import FpgaSynthesizer.AudioCodec
import FpgaSynthesizer.SerialOutput
import FpgaSynthesizer.I2cBus
import FpgaSynthesizer.StopAndWait
import FpgaSynthesizer.I2cController
import FpgaSynthesizer.I2cConfig
import FpgaSynthesizer.I2cTransfers
import FpgaSynthesizer.I2cSampling
import FpgaSynthesizer.I2cClocked
import FpgaSynthesizer.TwoPrograms
import FpgaSynthesizer.SoundBoard
import FpgaSynthesizer.DacReads
import FpgaSynthesizer.BoardSamples
import FpgaSynthesizer.InstructionPort
import FpgaSynthesizer.ClockedBoard
import FpgaSynthesizer.ClockedMain
import FpgaSynthesizer.ClockedPace
import FpgaSynthesizer.ClockedWires
import FpgaSynthesizer.AvalonPort
import FpgaSynthesizer.PioDevices
import FpgaSynthesizer.ConfiguredCodec
import FpgaSynthesizer.BoardBits
