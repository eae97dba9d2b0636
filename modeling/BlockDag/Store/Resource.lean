/-
Whole resources in a store: adding one splits it, puts its blocks and marks the root full; reading
one joins the blocks of a full root.
-/
import BlockDag.Blob.Join
import BlockDag.Blob.Split
import BlockDag.Store.Basic

namespace BlockDag

/-- Why a resource could not be added or read. -/
inductive ResourceError where
  | store (error : StoreError)
  | format (error : FormatError)
  | join (error : JoinError)
  | incomplete (root : RootId)
deriving DecidableEq

/-- The wording. -/
def ResourceError.message : ResourceError → String
  | store error => error.message
  | format error => error.message
  | join error => error.message
  | incomplete root => s!"root {root} is not fully downloaded"

namespace BlockStore

variable {σ : Type}

/-- Puts blocks one after the other up to the first that is refused, and the store as it is then. -/
def putAll (S : BlockStore σ) : List NamedBlock → σ → Except StoreError Unit × σ
  | [], s => (.ok (), s)
  | (id, raw) :: blocks, s =>
    match S.put s id raw with
    | (.ok (), s) => putAll S blocks s
    | (.error e, s) => (.error e, s)

/-- Marks `root` partial, then full, up to the first move that is refused. -/
def markFull (S : BlockStore σ) (root : RootId) (s : σ) : Except StoreError Unit × σ :=
  match S.setStatus s root .part with
  | (.error e, s) => (.error e, s)
  | (.ok (), s) => S.setStatus s root .full

/-- Adds `payload` and answers its root. A payload that is fully there is left alone. -/
def addResource (S : BlockStore σ) (size : BlockSize) (tag : DataTag) (payload : Bytes) (s : σ) :
    Except ResourceError RootId × σ :=
  match EncodedBlob.split size tag payload with
  | .error e => (.error (.format e), s)
  | .ok blob =>
    match S.getStatus s blob.root with
    | .error e => (.error (.store e), s)
    | .ok (some .full) => (.ok blob.root, s)
    | .ok _ =>
      match S.putAll blob.blocks s with
      | (.error e, s) => (.error (.store e), s)
      | (.ok (), s) =>
        match S.markFull blob.root s with
        | (.error e, s) => (.error (.store e), s)
        | (.ok (), s) => (.ok blob.root, s)

/-- A block that is there. -/
def lookup (S : BlockStore σ) (s : σ) (id : BlockId) : Option Bytes := (S.view s id).toOption

/-- Reads the resource of a full root. Where the store failed on a block, its error is the answer;
a block that is simply not there is missing. -/
def readResource (S : BlockStore σ) (size : BlockSize) (root : RootId) (s : σ) :
    Except ResourceError Resource :=
  match S.getStatus s root with
  | .error e => .error (.store e)
  | .ok (some .full) =>
    match join size root (S.lookup s) with
    | .ok resource => .ok resource
    | .error (.missing id) =>
      match S.view s id with
      | .error (.notFound _) | .ok _ => .error (.join (.missing id))
      | .error e => .error (.store e)
    | .error e => .error (.join e)
  | .ok _ => .error (.incomplete root)

end BlockStore

end BlockDag
