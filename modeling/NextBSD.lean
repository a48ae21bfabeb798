import NextBSD.Libpkg.Schedule.Schedule
import NextBSD.Libpkg.Solve.ResultJobs
import NextBSD.Libpkg.Conflicts
import NextBSD.Libpkg.Jobs.Provenance
import NextBSD.Sudoers.Sources
import NextBSD.Libpkg.Merge3
import NextBSD.Libpkg.AuditSearch
import NextBSD.Libpkg.Manifest.Representable
import NextBSD.Libpkg.Ports.Meaning
import NextBSD.Sudoers.TicketSoundness
import NextBSD.Iolog.JsonRoundTrip
import NextBSD.Sudoers.LdifSharing
import NextBSD.Event.Runs
import NextBSD.Sudoedit.NonWritable
import NextBSD.Iolog.PasswordFilter
import NextBSD.Iolog.LogClientSends
import NextBSD.Sudoers.LdapOrder
import NextBSD.Zsh.WordStrings
import NextBSD.Zsh.ScanSorted
import NextBSD.Zsh.SharedHistory
import NextBSD.Libpkg.Base32
import NextBSD.Libpkg.Osvf
import NextBSD.Libpkg.Pkghash
import NextBSD.Libpkg.Jobs.NeedUpgrade
import NextBSD.Libpkg.Checksum
import NextBSD.Libpkg.AbiText
import NextBSD.Libpkg.Deps.RoundTrip
import NextBSD.Libpkg.Solve.Driver
import NextBSD.Sudoers.Base64
import NextBSD.Sudoers.Timeout
import NextBSD.Sudoers.EnvPattern
import NextBSD.Sudoers.MatchAddr
import NextBSD.Libpkg.Manifest.AbsolutePath
import NextBSD.Libpkg.Cpe
import NextBSD.Libpkg.CudfNumbers
import NextBSD.Zsh.SortOrder
import NextBSD.Libpkg.Ports.Variables
import NextBSD.Zsh.NameOrder
import NextBSD.Zsh.FloatUnderscore
import NextBSD.Zsh.IntegerReadBack
import NextBSD.Zsh.Pattern.Approx
import NextBSD.Sudoreplay.Search
import NextBSD.Libpkg.Ports.Arguments
import NextBSD.Libpkg.Ports.ExecCmd
import NextBSD.Libpkg.DeferredTriggers
import NextBSD.Libpkg.Deinstall
import NextBSD.Sudoreplay.Output
import NextBSD.Libpkg.QueryFaithful
import NextBSD.Zsh.AbsPathExact
import NextBSD.Zsh.CaseModify
import NextBSD.Zsh.HistoryFile
import NextBSD.Zsh.SliceExact
import NextBSD.Zsh.BraceWords
import NextBSD.Zsh.HistLines
import NextBSD.Iolog.NextId
import NextBSD.Sudoers.Editor
import NextBSD.Iolog.Timing
import NextBSD.Sudoers.RedblackDestroy
