/-
The state of one download. It exists exactly as long as its root is in flight.
-/
import BlockDag.Download.Log
import BlockDag.Schema

namespace BlockDag

/-- Where a download stands. -/
inductive DownloadPhase where
  /-- Only the root is waited for; the shape of its tree is unknown. -/
  | requested
  /-- The root was checked and gave the tree its shape. -/
  | expanding (schema : Schema)
deriving DecidableEq

/-- One root in flight. -/
structure Download where
  tag : DataTag
  session : SessionId
  phase : DownloadPhase
  /-- Every block the root has asked for, itself included. -/
  descendants : BlockSet
  /-- Positions not yet resolved. -/
  outstanding : Nat
deriving DecidableEq

namespace Download

/-- The download of `root` as it starts: the root's own position is outstanding. -/
def start (root : RootId) (tag : DataTag) (session : SessionId) : Download :=
  ⟨tag, session, .requested, {root}, 1⟩

/-- The shape of the tree, once it is known. -/
def schema? (d : Download) : Option Schema :=
  match d.phase with
  | .requested => none
  | .expanding schema => some schema

/-- Whether nothing is waited for any more. -/
def Complete (d : Download) : Prop := d.outstanding = 0

instance (d : Download) : Decidable d.Complete := inferInstanceAs (Decidable (d.outstanding = 0))

/-- One more position waits for the block `id`. -/
def expect (d : Download) (id : BlockId) : Download :=
  { d with
    descendants := d.descendants.insert id
    outstanding := d.outstanding + 1 }

/-- `n` positions are resolved; more than are outstanding is reported. -/
def resolve (root : RootId) (n : Nat) (d : Download) : List LogEntry × Download :=
  (if d.outstanding < n then [.overResolved root n d.outstanding] else [],
    { d with outstanding := d.outstanding - n })

/-- Gives the tree its shape. The first shape stays; a later one is reported. -/
def assign (root : RootId) (schema : Schema) (d : Download) : List LogEntry × Download :=
  match d.phase with
  | .requested => ([], { d with phase := .expanding schema })
  | .expanding current => ([.schemaKept root current.length schema.length], d)

end Download

end BlockDag
