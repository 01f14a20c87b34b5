import AllvmTools.Library.Runs
import AllvmTools.Cache.JITPublication
import AllvmTools.StaticCodeGen.Serialization
import AllvmTools.AOTCompile.AOTCompile
import AllvmTools.AOTCompile.TempFiles
import AllvmTools.Cache.StaticPublication
import AllvmTools.Archive.Source
import AllvmTools.Archive.Session
import AllvmTools.Archive.SessionReads
import AllvmTools.Archive.UpdateEntry
import AllvmTools.Archive.Rollback
import AllvmTools.Archive.HashedArchive
import AllvmTools.Archive.AcceptedArchives
import AllvmTools.Archive.SharedBuffer
import AllvmTools.Archive.SessionBytes
import AllvmTools.Allmux.CtorFunctions
import AllvmTools.Allmux.References
import AllvmTools.Allmux.Dispatch
import AllvmTools.Alltogether.HiddenSymbols
import AllvmTools.Tools.OutputSafety
import AllvmTools.Tools.AlloptMain
import AllvmTools.Passes.DeInlineAsm
import AllvmTools.Wllvm.WLLVMFile
import AllvmTools.ExecutionYengine.CommandLine
import AllvmTools.Alley.AlleyRuns
