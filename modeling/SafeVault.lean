import SafeVault.Tags.Keep
import SafeVault.Tags.Operations
import SafeVault.Tags.Runs
import SafeVault.Index.Decode
import SafeVault.Legacy.CommitSafety
import SafeVault.Legacy.CompactPasses
import SafeVault.Vault.Structure
import SafeVault.Vault.LaneOrder
import SafeVault.Search.SavedQuery
import SafeVault.V3.StagedObjects
import SafeVault.Search.Results
import SafeVault.V3.ObjectRoundTrip
import SafeVault.V3.SettingsRuns
import SafeVault.Legacy.ContextRewrite
import SafeVault.Legacy.Reclaim
import SafeVault.Import.FilesTask
import SafeVault.Import.NestedAccount
import SafeVault.Duplicates.Review
import SafeVault.Import.QueueAccount
import SafeVault.Crypto.PageLock
import SafeVault.Migration.PoolProgress
import SafeVault.Vault.RenameApply
import SafeVault.Vault.MoveNode
import SafeVault.Tags.RenameCategory
import SafeVault.Tags.RenameTag
import SafeVault.Ui.SecureTextInput
import SafeVault.Tags.BundleImport
import SafeVault.Tags.TagBatch
import SafeVault.Search.Score
import SafeVault.Vault.UniqueName
import SafeVault.Import.ComicFaithful
import SafeVault.Vault.ChangePassword
import SafeVault.Vault.HeaderCodecs
import SafeVault.Vault.StructureEdits
import SafeVault.Vault.RemoveNodes
import SafeVault.Ui.GallerySort
import SafeVault.Ui.TagInherit
import SafeVault.Duplicates.Clusters
import SafeVault.Ui.ArchiveSelection
import SafeVault.V3.ObjectPaths
import SafeVault.Ui.Bstr
import SafeVault.Import.VolumeStream
import SafeVault.Import.EntryNumbers
import SafeVault.Ui.Export
import SafeVault.Migration.ProbeRetry
import SafeVault.Tags.DictApply
import SafeVault.V3.ObjectSafety
import SafeVault.V3.Verification
import SafeVault.V3.Backup
import SafeVault.Media.VideoObjectSource
