import SiglusExtract.AlphaRom.Hooks
import SiglusExtract.CmdLine
import SiglusExtract.CodeScan
import SiglusExtract.Color.Frame
import SiglusExtract.Dbs
import SiglusExtract.ExportTable
import SiglusExtract.FileName
import SiglusExtract.G00.Parts
import SiglusExtract.G00.Png
import SiglusExtract.G00.Save
import SiglusExtract.G00.Type2
import SiglusExtract.Gameexe.Intake
import SiglusExtract.GrowableArray
import SiglusExtract.HardwareBreakpoint
import SiglusExtract.Inject.Remote
import SiglusExtract.Kmp
import SiglusExtract.Lzss.Extent
import SiglusExtract.Lzss.Fixed
import SiglusExtract.Lzss.Guarded
import SiglusExtract.Mp.Manager
import SiglusExtract.Mp.Restore
import SiglusExtract.Mt64
import SiglusExtract.Nwa.Block
import SiglusExtract.Nwa.Divide
import SiglusExtract.Nwa.Flac
import SiglusExtract.Nwa.Format
import SiglusExtract.Nwa.SkipBlocks
import SiglusExtract.Nwa.Stereo
import SiglusExtract.Nwa.Vorbis
import SiglusExtract.Nwa.Wav
import SiglusExtract.Nwk
import SiglusExtract.Omv.Alpha
import SiglusExtract.Omv.Copy
import SiglusExtract.Omv.ToAvi
import SiglusExtract.Omv.ToPng
import SiglusExtract.Ovk
import SiglusExtract.PatchMaker
import SiglusExtract.PeImage
import SiglusExtract.Picture
import SiglusExtract.Scene.RoundTrip
import SiglusExtract.Script.Lines
import SiglusExtract.Script.Repack
import SiglusExtract.SiglusHook
import SiglusExtract.SiglusOmv
import SiglusExtract.StreamWriter
import SiglusExtract.UniversalPatch
