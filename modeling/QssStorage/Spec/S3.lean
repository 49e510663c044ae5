import QssStorage.Spec.Buckets

/-!
# S3 requests

The handlers of `s3cas/src/api`. A request carries what its handler looks at: an unparsable
header is `some none`, a body is the pieces of its stream with `none` for one that breaks off.
The pages a listing is cut into are left out, and it answers the entries its page is taken
from; a read answers what its body is made of (`Spec/GetObject` goes on with range and body).
-/

namespace QssStorage

open Conc

/-- A request. `fuel` bounds the walks of those that walk a tree. -/
inductive S3Request where
  | createBucket (bucket : Bytes)
  | deleteBucket (fuel : ℕ) (bucket : Bytes)
  | headBucket (bucket : Bytes)
  | getBucketLocation (bucket : Bytes)
  | listBuckets
  | listObjects (bucket : Bytes)
  | listObjectsV2 (bucket : Bytes) (token : Option (Option Bytes))
  | getObject (bucket key : Bytes)
  | headObject (bucket key : Bytes)
  | putObject (bucket key : Bytes) (validClass : Bool) (contentMd5 : Option (Option Bytes))
      (body : Option (List (Option Bytes))) (contentLength : Option ℤ)
  | deleteObject (bucket key : Bytes)
  | deleteObjects (bucket : Bytes) (keys : List Bytes)
  | copyObject
  | createMultipartUpload (bucket key uploadId : Bytes)
  | uploadPart (bucket key uploadId : Bytes) (partNumber : ℤ) (body : Option (List (Option Bytes)))
      (contentLength : Option ℤ) (contentMd5 : Option (Option Bytes))
  | completeMultipartUpload (bucket key uploadId : Bytes) (upload : Option (List (Option ℤ)))
  | abortMultipartUpload (fuel : ℕ) (bucket key uploadId : Bytes)
  | listParts (fuel : ℕ) (bucket key uploadId : Bytes)
  | listMultipartUploads (fuel : ℕ) (bucket : Bytes)
deriving DecidableEq

/-- What a request answers. -/
inductive S3Reply where
  | done
  | object (o : Object) (blocks : List (BlockId × Block))
  | objects (entries : List (Bytes × Object))
  | buckets (rows : List BucketMeta)
  | deleted (keys : List Bytes)
  | parts (parts : List MultiPart)
  | uploads (uploads : List UploadRecord)
deriving DecidableEq

variable (c : Config) (inlineMax : ℕ)

/-- The existence check most handlers make first. -/
def whenBucket {α : Type} (bucket : Bytes) (p : StoreProg (Except S3Err α)) : StoreProg (Except S3Err α) :=
  (bucketExists bucket).bind fun found => if found then p else .ret (.error .noSuchBucket)

/-- `MetaStore::get_meta`: opens the tree, then reads. -/
def getObjectMeta (bucket key : Bytes) : StoreProg (Except Err (Option Object)) :=
  (treeOpen bucket).andThen fun _ => readStore (getMeta bucket key)

/-- `key_exists`: opens the tree, then looks. -/
def keyExists (bucket key : Bytes) : StoreProg (Except Err Bool) :=
  (treeOpen bucket).andThen fun _ => readStore fun s => .ok ((s.tree bucket).get key).isSome

/-- The block records of `get_object_paths`. -/
def blockPaths : List BlockId → StoreProg (Except Err (List (BlockId × Block)))
  | [] => .ret (.ok [])
  | id :: ids => (readStore fun s =>
      match s.blocks.get id with
      | some (.record block) => .ok (some block)
      | some .garbage => .error .undecodable
      | none => .ok none).andThen fun
    | none => .ret (.error .blockNotFound)
    | some block => (blockPaths ids).andThen fun rest => .ret (.ok ((id, block) :: rest))

/-- `get_object_paths`. -/
def getObjectPaths (bucket key : Bytes) : StoreProg (Except Err (Option (Object × List (BlockId × Block)))) :=
  (getObjectMeta bucket key).andThen fun
    | none => .ret (.ok none)
    | some o => (blockPaths o.blocks).andThen fun paths => .ret (.ok (some (o, paths)))

/-- `list_buckets`: a row that does not decode fails the listing. -/
def bucketRows : List (Bytes × Cell BucketRow) → Except Err (List BucketMeta)
  | [] => .ok []
  | (_, .record (.bucket m)) :: rest =>
    match bucketRows rest with
    | .ok ms => .ok (m :: ms)
    | .error e => .error e
  | (_, .record (.namespaceRow _)) :: _ => .error .undecodable
  | (_, .garbage) :: _ => .error .undecodable

/-- The objects a listing is taken from. -/
def listedObjects (t : OrdMap Bytes (Cell Object)) : List (Bytes × Object) :=
  t.entries.filterMap fun e =>
    match e.2 with
    | .record o => some (e.1, o)
    | .garbage => none

/-- `upload_parts`: the first record that does not decode ends it. -/
def uploadParts (pre : Bytes) : ℕ → Option Bytes → StoreProg (Except Err (List MultiPart))
  | 0, _ => Prog.step fun _ _ => none
  | fuel + 1, cursor => (Reads.store.nextPart cursor).andThen fun
    | none => .ret (.ok [])
    | some (k, raw) =>
      if pre.isPrefixOf k then
        match raw with
        | .garbage => .ret (.error .undecodable)
        | .record part => (uploadParts pre fuel (some k)).andThen fun rest => .ret (.ok (part :: rest))
      else .ret (.ok [])

/-- Several keys, each deleted in turn; a key that cannot be is left out of the answer. -/
def deleteKeys (bucket : Bytes) : List Bytes → StoreProg (List Bytes)
  | [] => .ret []
  | key :: keys => (deleteObject c bucket key).bind fun r =>
    (deleteKeys bucket keys).bind fun rest =>
      match r with
      | .ok _ => .ret (key :: rest)
      | .error _ => .ret rest

/-- A body that is collected whole. -/
def collectBody : List (Option Bytes) → Option Bytes
  | [] => some []
  | none :: _ => none
  | some bytes :: rest => (collectBody rest).map (bytes ++ ·)

/-- `put_object_op`: small bodies inline; a body that does not match its digest is found out
before an inline write, and after any other, which is then deleted. -/
def putObject (bucket key : Bytes) (validClass : Bool) (contentMd5 : Option (Option Bytes))
    (body : Option (List (Option Bytes))) (contentLength : Option ℤ) : StoreProg (Except S3Err S3Reply) :=
  if !validClass then .ret (.error .invalidStorageClass)
  else match contentMd5, body with
  | some none, _ => .ret (.error .invalidDigest)
  | _, none => .ret (.error .incompleteBody)
  | expected, some body => whenBucket bucket <|
    match contentLength with
    | none => .ret (.error .missingContentLength)
    | some len =>
      if len < 0 then .ret (.error .invalidRequest)
      else if len.toNat ≤ inlineMax then
        match collectBody body with
        | none => .ret (.error (.internal .stream))
        | some data =>
          if expected.join.any (· ≠ c.md5 data) then .ret (.error .badDigest)
          else (tryStore (storeInlinedObject c bucket key data)).andThen fun _ => .ret (.ok .done)
      else
        (tryStore (storeSingleObjectAndMeta c bucket key body len.toNat)).andThen fun o =>
          if expected.join.any (· ≠ o.hash) then
            (tryStore (deleteObject c bucket key)).andThen fun _ => .ret (.error .badDigest)
          else .ret (.ok .done)

/-- A read of an object: what goes wrong below is answered as unavailable. -/
def orUnavailable {α : Type} (p : StoreProg (Except Err (Option α))) (f : α → S3Reply) : StoreProg (Except S3Err S3Reply) :=
  p.bind fun
    | .ok (some a) => .ret (.ok (f a))
    | .ok none => .ret (.error .noSuchKey)
    | .error _ => .ret (.error .serviceUnavailable)

/-- `delete_object_op`: no existence check, and looking for the key opens the tree. -/
def deleteObjectOp (bucket key : Bytes) : StoreProg (Except S3Err S3Reply) :=
  (tryStore (keyExists bucket key)).andThen fun found =>
    if found then (tryStore (deleteObject c bucket key)).andThen fun _ => .ret (.ok .done)
    else .ret (.error .noSuchKey)

/-- The answer of a request that answers nothing. -/
def quietly {α : Type} (p : StoreProg (Except S3Err α)) : StoreProg (Except S3Err S3Reply) :=
  p.andThen fun _ => .ret (.ok .done)

/-- The handler of a request. -/
def S3Request.handle : S3Request → StoreProg (Except S3Err S3Reply)
  | createBucket bucket => quietly (QssStorage.createBucket bucket)
  | deleteBucket fuel bucket => quietly (QssStorage.deleteBucket c fuel bucket)
  | headBucket bucket => quietly (QssStorage.headBucket bucket)
  | getBucketLocation bucket => quietly (QssStorage.headBucket bucket)
  | listBuckets => (tryStore (readStore fun s => bucketRows s.buckets.entries)).andThen fun rows => .ret (.ok (.buckets rows))
  | listObjects bucket => whenBucket bucket <| (tryStore (treeOpen bucket)).andThen fun _ =>
    (tryStore (readStore fun s => .ok (listedObjects (s.tree bucket)))).andThen fun l => .ret (.ok (.objects l))
  | listObjectsV2 bucket token => whenBucket bucket <| (tryStore (treeOpen bucket)).andThen fun _ =>
    if token = some none then .ret (.error .invalidToken)
    else (tryStore (readStore fun s => .ok (listedObjects (s.tree bucket)))).andThen fun l => .ret (.ok (.objects l))
  | getObject bucket key => whenBucket bucket <| orUnavailable (getObjectPaths bucket key) fun r => .object r.1 r.2
  | headObject bucket key => whenBucket bucket <| orUnavailable (getObjectMeta bucket key) fun o => .object o []
  | putObject bucket key validClass contentMd5 body contentLength =>
    QssStorage.putObject c inlineMax bucket key validClass contentMd5 body contentLength
  | deleteObject bucket key => deleteObjectOp c bucket key
  | deleteObjects bucket keys => whenBucket bucket <| (deleteKeys c bucket keys).bind fun ks => .ret (.ok (.deleted ks))
  | copyObject => .ret (.error .notImplemented)
  | createMultipartUpload bucket key uploadId => whenBucket bucket <|
    quietly (tryStore (createUpload bucket key uploadId))
  | uploadPart bucket key uploadId partNumber body contentLength contentMd5 =>
    quietly (QssStorage.uploadPart c bucket key uploadId partNumber body contentLength contentMd5)
  | completeMultipartUpload bucket key uploadId upload =>
    quietly (QssStorage.completeMultipartUpload c bucket key uploadId upload)
  | abortMultipartUpload fuel bucket key uploadId => quietly (QssStorage.abortMultipartUpload c fuel bucket key uploadId)
  | listParts fuel bucket key uploadId =>
    (tryStore (readStore (getUpload bucket key uploadId))).andThen fun
      | none => .ret (.error .noSuchUpload)
      | some _ =>
        (tryStore (uploadParts (partPrefix bucket key uploadId) fuel (some (partPrefix bucket key uploadId)))).andThen
          fun ps => .ret (.ok (.parts ps))
  | listMultipartUploads fuel bucket => whenBucket bucket <|
    (tryStore (listUploads fuel none)).andThen fun us => .ret (.ok (.uploads (us.filter fun u => u.bucket = bucket)))

end QssStorage
