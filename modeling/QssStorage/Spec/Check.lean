import QssStorage.Spec.GetObject

/-!
# Checking an object

`s3cas/src/check.rs`: every block file of an object is hashed again and compared with the address
it is filed under, and the assembled bytes with the content hash of the record. The store is there
(`refuse_unless_store_exists`), and it is opened without verification; what is printed on the way
is left out, and so are the texts of errors.
-/

namespace QssStorage

open Conc

/-- `BlockFault`. -/
inductive BlockFault where
  | unreadable (id : BlockId) (path : BlockId ×ₗ ℕ)
  | mismatch (id : BlockId) (path : BlockId ×ₗ ℕ) (actual : BlockId)
deriving DecidableEq

/-- How a check ends well: the object is not there, or all of it was verified. -/
inductive CheckReply where
  | notFound
  | passed (blocks : ℕ)
deriving DecidableEq

/-- How it ends with an error. -/
inductive CheckErr where
  | store (e : Err)
  | body (e : BodyErr)
  | failed (faults : List BlockFault) (blocks : ℕ) (etagOk : Bool)
deriving DecidableEq

/-- `std::fs::read`. -/
def readWhole (path : BlockId ×ₗ ℕ) : StoreProg (Option Bytes) :=
  Prog.step fun e s => some (if e.read then s.files.get path else none, s)

variable (c : Config)

/-- `verify_blocks`. -/
def verifyBlocks : List BlockId → List ((BlockId ×ₗ ℕ) × ℕ) → StoreProg (List BlockFault)
  | id :: ids, (path, _) :: paths => (readWhole path).bind fun content =>
    (verifyBlocks ids paths).bind fun faults =>
      match content with
      | none => .ret (.unreadable id path :: faults)
      | some bytes => .ret (if c.hash bytes = id then faults else .mismatch id path (c.hash bytes) :: faults)
  | _, _ => .ret []

/-- `read_object`. -/
def readObject (fuel : ℕ) (o : Object) (paths : List ((BlockId ×ₗ ℕ) × ℕ)) : StoreProg (Except BodyErr Bytes) :=
  match o.inlined with
  | some data => .ret (.ok data)
  | none => (BlockStream.new paths (paths.map Prod.snd).sum .all).collect c fuel []

/-- `check_integrity`. -/
def checkIntegrity (fuel : ℕ) (bucket key : Bytes) : StoreProg (Except CheckErr CheckReply) :=
  (getObjectPaths bucket key).bind fun
    | .error e => .ret (.error (.store e))
    | .ok none => .ret (.ok .notFound)
    | .ok (some (o, blocks)) =>
      let paths := blocks.map fun p => (toLex (p.1, diskDepth p.1 p.2.depth), p.2.size)
      (verifyBlocks c o.blocks paths).bind fun faults =>
        (readObject c fuel o paths).bind fun
          | .error e => .ret (.error (.body e))
          | .ok data =>
            if faults = [] ∧ c.md5 data = o.hash then .ret (.ok (.passed o.blocks.length))
            else .ret (.error (.failed faults o.blocks.length (c.md5 data = o.hash)))

end QssStorage
