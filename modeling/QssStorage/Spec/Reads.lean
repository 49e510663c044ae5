import QssStorage.Spec.Multipart

/-!
# Reads that keep failing

With `Reads.failing` the reads of a sweep or an abort fail on a set of keys, as often as they are
tried: `iter_kv` finds the next entry, fails to read it, and leaves its cursor where it was
(`advance`).
-/

namespace QssStorage

open Conc

/-- The keys of the two trees whose reads fail, every time. -/
structure FailingKeys where
  uploads : Bytes → Bool
  parts : Bytes → Bool

/-- One step of `iter_kv` where the reads of some keys fail. -/
def nextReadable {V : Type} (bad : Bytes → Bool) : Option (Bytes × V) → Except Err (Option (Bytes × V))
  | none => .ok none
  | some e => if bad e.1 then .error .io else .ok (some e)

/-- The reads that fail exactly on the given keys. -/
def Reads.failing (bad : FailingKeys) : Reads where
  nextPart cursor := Prog.step fun _ s => some (nextReadable bad.parts (s.parts.nextAfter cursor), s)
  nextUpload cursor := Prog.step fun _ s => some (nextReadable bad.uploads (s.uploads.nextAfter cursor), s)
  getUpload bucket key uploadId := Prog.step fun _ s =>
    some (if bad.uploads (uploadKey bucket key uploadId) then .error .io else QssStorage.getUpload bucket key uploadId s, s)
  claimUpload bucket key uploadId := transact fun s =>
    if bad.uploads (uploadKey bucket key uploadId) then .error .io else takeUpload (uploadKey bucket key uploadId) s
  takePart k := transact fun s => if bad.parts k then .error .io else reapTx k s

end QssStorage
