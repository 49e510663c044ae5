import QssStorage.Proof.Check
import QssStorage.Proof.Clone
import QssStorage.Proof.Committer
import QssStorage.Proof.Degraded
import QssStorage.Proof.DirSync
import QssStorage.Proof.Existence
import QssStorage.Proof.GroupCommit
import QssStorage.Proof.Identity
import QssStorage.Proof.LastCopy
import QssStorage.Proof.Listing
import QssStorage.Proof.Rights
import QssStorage.Proof.Rollback
import QssStorage.Proof.ScanPages
import QssStorage.Proof.Stored
import QssStorage.Proof.Stripes
import QssStorage.Proof.TreeWalks
import QssStorage.Proof.UploadPages
import QssStorage.Proof.ValueCap
