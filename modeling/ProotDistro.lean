import ProotDistro.Posix.Namei
import ProotDistro.Dirfd
import ProotDistro.Dirfd.Removal
import ProotDistro.Dirfd.CopyTree
import ProotDistro.Copy
import ProotDistro.Posix.Chroot
import ProotDistro.TarExtract
import ProotDistro.TarExtract.Confinement
import ProotDistro.TarExtract.HardLinks
import ProotDistro.Paths
import ProotDistro.Guestfile
import ProotDistro.Resolvers
import ProotDistro.Lib.Fold
import ProotDistro.TarExtract.Whiteouts
import ProotDistro.LayerDiff
import ProotDistro.LayerDiff.RoundTrip
import ProotDistro.BuildEngine.CopyStep
import ProotDistro.BuildEngine.CopyLayer
import ProotDistro.Lib.Dict
import ProotDistro.Lib.Text
import ProotDistro.Dockerfile
import ProotDistro.Dockerfile.Parser
import ProotDistro.Dockerfile.Compose
import ProotDistro.Dockerfile.Heredocs
import ProotDistro.BuildEngine.RunHeredocs
import ProotDistro.BuildEngine.OnbuildText
import ProotDistro.Lib.Json
import ProotDistro.BuildEngine.Parsing
import ProotDistro.BuildEngine.Stage
import ProotDistro.BuildCache
import ProotDistro.BuildEngine.Adopt
import ProotDistro.BuildEngine.RunStep
import ProotDistro.Lib.Result
import ProotDistro.BuildEngine.Handlers
import ProotDistro.BuildEngine.Engine
import ProotDistro.BuildEngine.Effects
import ProotDistro.BuildEngine.Inherit
import ProotDistro.Docker.Digest
import ProotDistro.Login.Env
import ProotDistro.HostExec
import ProotDistro.OciWriter
import ProotDistro.BuildEngine.History
import ProotDistro.BuildEngine.Onbuild
import ProotDistro.BuildEngine.Workdir
import ProotDistro.Lib.Shlex
import ProotDistro.BuildEngine.EnvValues
import ProotDistro.BuildEngine.Target
import ProotDistro.BuildEngine.ArgLaw
import ProotDistro.BuildEngine.Dockerignore
import ProotDistro.BuildEngine.CopyDirectory
import ProotDistro.Lib.Numeral
import ProotDistro.BuildEngine.Users
import ProotDistro.Login.Passwd
import ProotDistro.InstallLocal
import ProotDistro.Lib.Holes
import ProotDistro.Dirfd.CopyData
import ProotDistro.Dirfd.Levels
import ProotDistro.L2s.Rewrite
import ProotDistro.BuildCache.Index
import ProotDistro.ClearCache
import ProotDistro.Docker.Inventory
import ProotDistro.RemoveImage
import ProotDistro.Docker.Canonical
import ProotDistro.Docker.Refs
import ProotDistro.Lib.Base64
import ProotDistro.Docker.Pull
import ProotDistro.Docker.Trust
import ProotDistro.Lib.Url
import ProotDistro.Download.Redirect
import ProotDistro.Download.Retry
import ProotDistro.Docker.Transport
import ProotDistro.Docker.Push
import ProotDistro.Posix.Faults
import ProotDistro.Kill
import ProotDistro.Lib.PrefixCode
import ProotDistro.Message
import ProotDistro.Lib.CodePoint
import ProotDistro.Lib.Shell
import ProotDistro.Login.GetProotCmd
import ProotDistro.Login.ProfileSnippet
import ProotDistro.Lib.JsonString
import ProotDistro.Lib.JsonText
import ProotDistro.Docker.ConfigDigest
import ProotDistro.Lib.Machine
import ProotDistro.Session
import ProotDistro.Lib.LockOrder
import ProotDistro.Locking
import ProotDistro.Dirfd.Within
import ProotDistro.Restore
import ProotDistro.Restore.Manifest
import ProotDistro.Restore.Confined
import ProotDistro.Docker.Alias
import ProotDistro.Lib.JsonAlike
import ProotDistro.Docker.ConfigReread
import ProotDistro.Lib.JsonList
import ProotDistro.BuildEngine.RunKey
import ProotDistro.BuildEngine.RunExecution
import ProotDistro.Restore.Commit
import ProotDistro.Dirfd.RemovalFrame
import ProotDistro.Sync
import ProotDistro.Sync.Turns
import ProotDistro.Sync.Mirror
import ProotDistro.Sync.Prune
import ProotDistro.Sync.Directory
