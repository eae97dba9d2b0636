/-
Verdicts, root by root. Judging a block never leaves the 64-bit numbers: every sum, product and
position that is worked out on the way is one. The verdict is exact, a root's tree being malformed just
where the block does not come apart, declares nothing acceptable, or is rejected at a position; and what
it says of a root is a matter of that root's state, its positions and the block, and of nothing else.
-/
import BlockDag.Proofs.Figures
import BlockDag.Proofs.Judging
import BlockDag.Proofs.Levels
import BlockDag.Proofs.Memory

namespace BlockDag

/-! ## Judging with checked numbers -/

/-- Takes the bytes of a block apart, with the end of the links checked. -/
def Block.decode? (raw : Bytes) : Option (Except FormatError Block) :=
  if raw.length < linkCountSize then return .error (.blockTooShort raw.length)
  else do
    let count := Bytes.toNat (raw.take linkCountSize)
    let linkBytes ← Word.mul? count linkSize
    let stop ← Word.add? linkCountSize linkBytes
    if raw.length < stop then return .error (.linksOverflow count raw.length)
    else
      let links := (Bytes.pieces linkSize ((raw.take stop).drop linkCountSize)).filterMap BlockId.ofBytes?
      return .ok ⟨links, raw.drop stop⟩

namespace Judgement

/-- The positions that the links of a block at `ix` lead to: the first child is found, and the number of
each link is added to it. -/
def childrenAt? (rules : Rules) (root : RootId) (links : List BlockId) (ix : Nat) : Option (List Child) := do
  let first ← rules.layout.firstChild? ix
  links.zipIdx.mapM fun (id, i) => do
    let position ← Word.add? first i
    return ⟨root, id, position⟩

/-- Checks a block at every position, up to the first it does not fit; the children of the positions
before are there by then. -/
def gather? (rules : Rules) (root : RootId) (size : Nat) (block : Block) (f : Schema.Figures) :
    (children : List Child) → List Nat → Option (Except FormatError (List Child))
  | children, [] => return .ok children
  | children, ix :: rest => do
    match ← f.check? ix size block.links.length with
    | .error e => return .error e
    | .ok () => do
      let found ← childrenAt? rules root block.links ix
      gather? rules root size block f (children ++ found) rest

/-- Judges a block that came apart by a known shape, the figures of which are worked out. -/
def bySchema? (rules : Rules) (root : RootId) (size : Nat) (block : Block) (positions : List Nat)
    (fresh : Option Schema) (s : Schema) : Option Judgement := do
  let f ← Schema.Figures.ofLength? s.size s.length
  match ← gather? rules root size block f [] positions with
  | .error e => return .malformed e
  | .ok children => return .valid fresh children

/-- Judges a block of `size` bytes for one root. -/
def ofBlock? (rules : Rules) (size : Nat) (block : Except FormatError Block) (root : RootId)
    (state : Option Download) (positions : List Nat) : Option Judgement :=
  match block with
  | .error e => return .malformed e
  | .ok block =>
    match state with
    | none => return .rootUnknown
    | some d =>
      if 0 ∈ positions then
        match rootSchema rules d.tag block.data with
        | .error e => return .malformed e
        | .ok s => bySchema? rules root size block positions (some s) s
      else
        match d.schema? with
        | none => return .schemaUnknown positions
        | some s => bySchema? rules root size block positions none s

end Judgement

/-- Judges the block `raw` for every root of `awaiting`. -/
def Verdict.ofBlock? (rules : Rules) (raw : Bytes) (awaiting : Awaiting) (roots : Table RootId Download) :
    Option Verdict := do
  let block ← Block.decode? raw
  let judgements ← awaiting.mapM fun (root, positions) => do
    let j ← Judgement.ofBlock? rules raw.length block root (roots.get? root) positions
    return (root, j)
  return ⟨judgements⟩

/-! ## No number is too large -/

theorem mapM_eq_some {α β : Type} {f : α → Option β} {g : α → β} {l : List α} (h : ∀ a ∈ l, f a = some (g a)) :
    l.mapM f = some (l.map g) := by
  induction l with
  | nil => rfl
  | cons a l ih =>
    rw [List.mapM_cons, h a List.mem_cons_self, ih fun b hb => h b (List.mem_cons_of_mem a hb)]
    rfl

namespace Block

/-- A piece of the right size is the first one. -/
theorem piecesWithin_append {size : Nat} {piece : Bytes} (hsize : piece.length = size) (hpos : 0 < size) (fuel : Nat)
    (rest : Bytes) :
    Bytes.piecesWithin size (fuel + 1) (piece ++ rest) = piece :: Bytes.piecesWithin size fuel rest := by
  obtain ⟨byte, bytes, hpiece⟩ := List.exists_cons_of_length_pos (hsize ▸ hpos)
  rw [hpiece, List.cons_append, Bytes.piecesWithin, ← List.cons_append, ← hpiece, List.take_left' hsize,
    List.drop_left' hsize]
  exact List.cons_ne_nil _ _

/-- The pieces of the bytes of links are the links. -/
theorem filterMap_pieces (links : List BlockId) :
    (Bytes.pieces linkSize (links.flatMap (·.bytes))).filterMap BlockId.ofBytes? = links := by
  have key : ∀ fuel, links.length < fuel →
      (Bytes.piecesWithin linkSize fuel (links.flatMap (·.bytes))).filterMap BlockId.ofBytes? = links := by
    induction links with
    | nil =>
      intro fuel _
      cases fuel <;> rfl
    | cons link links ih =>
      intro fuel hfuel
      obtain ⟨fuel, rfl⟩ := Nat.exists_eq_add_one.2 (Nat.zero_lt_of_lt hfuel)
      have hlen : link.bytes.length = linkSize := link.length_bytes
      rw [List.flatMap_cons, piecesWithin_append hlen (by decide),
        List.filterMap_cons_some (BlockId.ofBytes?_bytes link), ih fuel (Nat.lt_of_succ_lt_succ hfuel)]
  apply key
  rw [length_flatMap_bytes, Nat.mul_div_cancel _ (by decide)]
  omega

/-- A block comes apart in the same way with every number checked. -/
theorem decode?_eq (raw : Bytes) : decode? raw = some (decode raw) := by
  unfold decode?
  split
  · next hshort =>
    rw [decode, if_pos hshort]
    rfl
  · next hlong =>
    have htwo : (raw.take linkCountSize).length = linkCountSize := by
      rw [List.length_take]
      omega
    have hcount := Bytes.toNat_lt (raw.take linkCountSize)
    rw [htwo] at hcount
    simp only [decode, if_neg hlong]
    generalize Bytes.toNat (raw.take linkCountSize) = count at *
    have hmax : linkCountSize + count * linkSize ≤ Word.max := by
      simp only [linkCountSize, linkSize, Bytes.capacity, Word.max] at *
      omega
    have hlinks : Word.mul? count linkSize = some (count * linkSize) := Word.mul?_eq (by omega)
    have hstop : Word.add? linkCountSize (count * linkSize) = some (linkCountSize + count * linkSize) :=
      Word.add?_eq hmax
    rw [hlinks, Option.bind_eq_bind, Option.bind_some, hstop, Option.bind_some]
    have hdrop : (raw.drop linkCountSize).length = raw.length - linkCountSize := List.length_drop
    split
    · next hover =>
      rw [takeLinks?_eq_none (by omega)]
      rfl
    · next hfits =>
      have hroom : count * linkSize ≤ (raw.drop linkCountSize).length := by omega
      obtain ⟨links, rest, htake⟩ := exists_takeLinks? hroom
      obtain ⟨hlen, hraw⟩ := of_takeLinks? htake
      have hbytes := length_flatMap_bytes links
      rw [hlen] at hbytes
      rw [htake]
      have hfront : (raw.take (linkCountSize + count * linkSize)).drop linkCountSize = links.flatMap (·.bytes) := by
        rw [List.drop_take, Nat.add_sub_cancel_left, hraw, List.take_left' hbytes]
      have hback : raw.drop (linkCountSize + count * linkSize) = rest := by
        rw [← List.drop_drop, hraw, List.drop_left' hbytes]
      rw [hfront, hback, filterMap_pieces]
      rfl

end Block

namespace Judgement

variable {rules : Rules} {root : RootId} {size : Nat} {block : Block} {s : Schema}

/-- The children of a position that the block fits have numbers. -/
theorem childrenAt?_eq (hs : s.size = rules.size) (hl : s.length ≤ Word.max) (hsize : 2 ≤ size) {ix : Nat}
    (hcheck : s.check ix size block.links.length = .ok ()) :
    childrenAt? rules root block.links ix = some (childrenAt rules root block.links ix) := by
  have hix := Schema.lt_of_check hsize hcheck
  have hmax := s.totalBlocks_le_max hl
  have hlinks := (Schema.check_eq_ok_iff.1 hcheck).2
  unfold childrenAt? childrenAt
  rw [layout_eq hs, s.layout.firstChild?_eq (by omega), Option.bind_eq_bind, Option.bind_some]
  apply mapM_eq_some
  rintro ⟨id, i⟩ hm
  have hi : i < s.linkCount ix := by
    rw [← hlinks]
    exact (List.mem_zipIdx' hm).1
  have hchild := s.firstChild_add_lt hl hi
  dsimp only
  rw [Word.add?_eq (by omega)]
  rfl

theorem gather?_eq (hs : s.size = rules.size) (hl : s.length ≤ Word.max) (hsize : 2 ≤ size) (children : List Child)
    (positions : List Nat) :
    gather? rules root size block s.figures children positions =
      some (match checkAll s size block.links.length positions with
        | .error e => .error e
        | .ok () => .ok (children ++ positions.flatMap (childrenAt rules root block.links))) := by
  induction positions generalizing children with
  | nil =>
    rw [gather?, List.flatMap_nil, List.append_nil]
    rfl
  | cons ix rest ih =>
    rw [gather?, checkAll, (s.figures_tell hl).check, Option.bind_eq_bind, Option.bind_some]
    cases hcheck : s.check ix size block.links.length with
    | error e => rfl
    | ok u =>
      dsimp only
      rw [childrenAt?_eq hs hl hsize hcheck, Option.bind_eq_bind, Option.bind_some, ih, List.flatMap_cons,
        List.append_assoc]
      rfl

theorem bySchema?_eq (hs : s.size = rules.size) (hl : s.length ≤ Word.max) (hsize : 2 ≤ size)
    (positions : List Nat) (fresh : Option Schema) :
    bySchema? rules root size block positions fresh s = some (bySchema rules root size block positions fresh s) := by
  unfold bySchema? bySchema
  rw [s.ofLength?_eq hl, Option.bind_eq_bind, Option.bind_some, gather?_eq hs hl hsize, Option.bind_eq_bind,
    Option.bind_some]
  cases checkAll s size block.links.length positions <;> rfl

/-- Judging for one root succeeds with every number checked. -/
theorem ofBlock?_eq (rules : Rules) (raw : Bytes) (root : RootId) {state : Option Download} (positions : List Nat)
    (hlaid : ∀ d s, state = some d → d.schema? = some s → s.size = rules.size ∧ s.length ≤ Word.max) :
    ofBlock? rules raw.length (Block.decode raw) root state positions =
      some (ofBlock rules raw.length (Block.decode raw) root state positions) := by
  unfold ofBlock? ofBlock
  cases hdecode : Block.decode raw with
  | error e => rfl
  | ok block =>
    have hsize : 2 ≤ raw.length := by
      have := Block.length_of_decode hdecode
      simp only [linkCountSize] at this
      omega
    cases state with
    | none => rfl
    | some d =>
      dsimp only
      split
      · cases hroot : rootSchema rules d.tag block.data with
        | error e => rfl
        | ok s =>
          obtain ⟨hsmall, hs⟩ := small_of_rootSchema hroot
          exact bySchema?_eq hs hsmall.fits hsize positions (some s)
      · cases hschema : d.schema? with
        | none => rfl
        | some s =>
          obtain ⟨hs, hl⟩ := hlaid d s rfl hschema
          exact bySchema?_eq hs hl hsize positions none

end Judgement

/-- Judging succeeds with every number checked, if the shapes that the trees have are of the rules' block
size and of a 64-bit length. -/
theorem Verdict.ofBlock?_eq {rules : Rules} {roots : Table RootId Download} (raw : Bytes) (awaiting : Awaiting)
    (hlaid : ∀ root d s, roots.get? root = some d → d.schema? = some s →
      s.size = rules.size ∧ s.length ≤ Word.max) :
    ofBlock? rules raw awaiting roots = some (ofBlock rules raw awaiting roots) := by
  unfold ofBlock? ofBlock
  rw [Block.decode?_eq, Option.bind_eq_bind, Option.bind_some, mapM_eq_some (l := awaiting)]
  · rfl
  · rintro ⟨root, positions⟩ -
    dsimp only
    rw [Judgement.ofBlock?_eq rules raw root positions (hlaid root)]
    rfl

/-! ## What a block has to be -/

/-- The shape that decides on a block at `positions`: the one that the block declares if it is awaited as
the root, and otherwise the one that the tree has. -/
def Governs (rules : Rules) (d : Download) (positions : List Nat) (block : Block) (s : Schema) : Prop :=
  0 ∈ positions ∧ Judgement.Declares rules d.tag block.data s ∨ 0 ∉ positions ∧ d.schema? = some s

/-- The block is no part of the tree at `positions`. -/
inductive Misfits (rules : Rules) (d : Download) (positions : List Nat) (raw : Bytes) : Prop
  /-- It does not come apart. -/
  | broken : (∀ block, Block.decode raw ≠ .ok block) → Misfits rules d positions raw
  /-- It is awaited as the root and declares nothing acceptable. -/
  | undeclared {block} : Block.decode raw = .ok block → 0 ∈ positions →
      (∀ s, ¬ Judgement.Declares rules d.tag block.data s) → Misfits rules d positions raw
  /-- It has another size or another number of links than a position. -/
  | rejected {block s ix} : Block.decode raw = .ok block → Governs rules d positions block s → ix ∈ positions →
      s.check ix raw.length block.links.length ≠ .ok () → Misfits rules d positions raw

/-- The block comes apart and fits all of `positions` in a tree of the shape `s`. -/
structure Fits (rules : Rules) (d : Download) (positions : List Nat) (raw : Bytes) (block : Block) (s : Schema) :
    Prop where
  decodes : Block.decode raw = .ok block
  governs : Governs rules d positions block s
  passes : ∀ ix ∈ positions, s.check ix raw.length block.links.length = .ok ()

section Exact

variable {rules : Rules} {d : Download} {positions : List Nat} {raw : Bytes} {block : Block} {s : Schema}

/-- At most one shape decides. -/
theorem Governs.unique {t : Schema} (hs : Governs rules d positions block s) (ht : Governs rules d positions block t) :
    s = t := by
  rcases hs with ⟨hzero, hs⟩ | ⟨hzero, hs⟩ <;> rcases ht with ⟨hzero', ht⟩ | ⟨hzero', ht⟩
  · rw [← Judgement.rootSchema_eq_ok_iff] at hs ht
    exact Except.ok.inj (hs.symm.trans ht)
  · contradiction
  · contradiction
  · exact Option.some.inj (hs.symm.trans ht)

theorem Fits.not_misfits (h : Fits rules d positions raw block s) : ¬ Misfits rules d positions raw := by
  intro hm
  cases hm with
  | broken hbroken => exact hbroken block h.decodes
  | undeclared hdecode hzero hnone =>
    cases h.decodes.symm.trans hdecode
    rcases h.governs with ⟨-, hs⟩ | ⟨hzero', -⟩
    · exact hnone s hs
    · exact hzero' hzero
  | rejected hdecode hgoverns hix hrejects =>
    cases h.decodes.symm.trans hdecode
    cases h.governs.unique hgoverns
    exact hrejects (h.passes _ hix)

namespace Judgement

variable {root : RootId}

/-- A block that came apart is judged by the shape that decides. -/
theorem bySchema_exact (hdecode : Block.decode raw = .ok block) (hgoverns : Governs rules d positions block s)
    (fresh : Option Schema) :
    Misfits rules d positions raw ∧ (∃ e, bySchema rules root raw.length block positions fresh s = .malformed e) ∨
    Fits rules d positions raw block s ∧ bySchema rules root raw.length block positions fresh s =
      .valid fresh (positions.flatMap (childrenAt rules root block.links)) := by
  unfold bySchema
  cases hcheck : checkAll s raw.length block.links.length positions with
  | error e =>
    have hrejected : ∃ ix ∈ positions, s.check ix raw.length block.links.length ≠ .ok () := by
      by_contra hnone
      push Not at hnone
      rw [checkAll_eq_ok_iff.2 hnone] at hcheck
      cases hcheck
    obtain ⟨ix, hix, hrejects⟩ := hrejected
    exact .inl ⟨.rejected hdecode hgoverns hix hrejects, e, rfl⟩
  | ok u => exact .inr ⟨⟨hdecode, hgoverns, checkAll_eq_ok_iff.1 hcheck⟩, rfl⟩

/-- The judgement of a root with a download: the block is malformed for it, it fits and the children of
its positions are found, or no shape decides on it yet. -/
theorem ofBlock_exact (rules : Rules) (raw : Bytes) (root : RootId) (d : Download) (positions : List Nat) :
    Misfits rules d positions raw ∧
      (∃ e, ofBlock rules raw.length (Block.decode raw) root (some d) positions = .malformed e) ∨
    (∃ block s, Fits rules d positions raw block s ∧
      ofBlock rules raw.length (Block.decode raw) root (some d) positions =
        .valid (if 0 ∈ positions then some s else none) (positions.flatMap (childrenAt rules root block.links))) ∨
    ((∃ block, Block.decode raw = .ok block ∧ ∀ s, ¬ Governs rules d positions block s) ∧ 0 ∉ positions ∧
      ofBlock rules raw.length (Block.decode raw) root (some d) positions = .schemaUnknown positions) := by
  unfold ofBlock
  cases hdecode : Block.decode raw with
  | error e =>
    have hbroken : ∀ block, Block.decode raw ≠ .ok block := by
      intro block h
      rw [hdecode] at h
      cases h
    exact .inl ⟨.broken hbroken, e, rfl⟩
  | ok block =>
    dsimp only
    by_cases hzero : 0 ∈ positions
    · simp only [if_pos hzero]
      cases hroot : rootSchema rules d.tag block.data with
      | error e =>
        refine .inl ⟨.undeclared hdecode hzero fun s hs => ?_, e, rfl⟩
        rw [rootSchema_eq_ok_iff.2 hs] at hroot
        cases hroot
      | ok s =>
        have hgoverns : Governs rules d positions block s := .inl ⟨hzero, rootSchema_eq_ok_iff.1 hroot⟩
        rcases bySchema_exact hdecode hgoverns (some s) with h | ⟨hfits, hvalid⟩
        · exact .inl h
        · exact .inr (.inl ⟨block, s, hfits, hvalid⟩)
    · simp only [if_neg hzero]
      cases hschema : d.schema? with
      | none =>
        refine .inr (.inr ⟨⟨block, rfl, ?_⟩, hzero, rfl⟩)
        rintro s (⟨hzero', -⟩ | ⟨-, hs⟩)
        · exact hzero hzero'
        · rw [hschema] at hs
          cases hs
      | some s =>
        rcases bySchema_exact hdecode (.inr ⟨hzero, hschema⟩) none with h | ⟨hfits, hvalid⟩
        · exact .inl h
        · exact .inr (.inl ⟨block, s, hfits, hvalid⟩)

theorem ofBlock_malformed_iff :
    (∃ e, ofBlock rules raw.length (Block.decode raw) root (some d) positions = .malformed e) ↔
      Misfits rules d positions raw := by
  rcases ofBlock_exact rules raw root d positions with
    ⟨hmisfits, hjudged⟩ | ⟨block, s, hfits, hjudged⟩ | ⟨⟨block, hdecode, hnone⟩, hzero, hjudged⟩
  · exact ⟨fun _ => hmisfits, fun _ => hjudged⟩
  · rw [hjudged]
    exact ⟨fun ⟨_, h⟩ => (by cases h), fun h => absurd h hfits.not_misfits⟩
  · rw [hjudged]
    refine ⟨fun ⟨_, h⟩ => (by cases h), fun h => ?_⟩
    cases h with
    | broken hbroken => exact absurd hdecode (hbroken block)
    | undeclared _ hzero' _ => exact absurd hzero' hzero
    | rejected hdecode' hgoverns _ _ =>
      cases hdecode.symm.trans hdecode'
      exact absurd hgoverns (hnone _)

theorem ofBlock_valid_iff {fresh : Option Schema} {children : List Child} :
    ofBlock rules raw.length (Block.decode raw) root (some d) positions = .valid fresh children ↔
      ∃ block s, Fits rules d positions raw block s ∧ fresh = (if 0 ∈ positions then some s else none) ∧
        children = positions.flatMap (childrenAt rules root block.links) := by
  rcases ofBlock_exact rules raw root d positions with
    ⟨hmisfits, e, hjudged⟩ | ⟨block, s, hfits, hjudged⟩ | ⟨⟨block, hdecode, hnone⟩, -, hjudged⟩ <;> rw [hjudged]
  · exact ⟨fun h => (by cases h), fun ⟨_, _, hfits, _⟩ => absurd hmisfits hfits.not_misfits⟩
  · constructor
    · intro h
      cases h
      exact ⟨block, s, hfits, rfl, rfl⟩
    · rintro ⟨block', s', hfits', rfl, rfl⟩
      cases hfits.decodes.symm.trans hfits'.decodes
      rw [hfits.governs.unique hfits'.governs]
  · refine ⟨fun h => (by cases h), ?_⟩
    rintro ⟨block', s', hfits, -⟩
    cases hdecode.symm.trans hfits.decodes
    exact absurd hfits.governs (hnone s')

end Judgement

/-! ## One root's part -/

namespace Verdict

variable {root : RootId} {awaiting : Awaiting} {roots : Table RootId Download} {v : Verdict}

/-- What a verdict says of one root. -/
structure Part where
  malformed : Option FormatError
  validated : Bool
  schema : Option Schema
  children : List Child
deriving DecidableEq

/-- What `v` says of `root`. -/
def part (v : Verdict) (root : RootId) : Part where
  malformed := Table.get? root v.malformed
  validated := decide (root ∈ v.validated)
  schema := Table.get? root v.schemas
  children := v.children.filter fun c => decide (c.root = root)

/-- What a judgement says of its root. -/
def Part.of : Option Judgement → Part
  | some (.malformed e) => ⟨some e, false, none, []⟩
  | some (.valid fresh children) => ⟨none, true, fresh, children⟩
  | _ => ⟨none, false, none, []⟩

/-- What a verdict says of a root is what the root's judgement says. -/
theorem part_eq (hkeys : (Table.keys v.judgements).Nodup)
    (hown : ∀ e ∈ v.judgements, ∀ c ∈ e.2.children, c.root = e.1) (root : RootId) :
    v.part root = Part.of (Table.get? root v.judgements) := by
  have hvalidated : root ∈ v.validated ↔ ∃ fresh cs, Table.get? root v.judgements = some (.valid fresh cs) := by
    simp only [mem_validated, Table.get?_eq_some_iff hkeys]
  unfold part
  rw [get?_malformed hkeys, get?_schemas hkeys, children_of_root hkeys hown]
  cases hj : Table.get? root v.judgements with
  | none => simp [Part.of, hj, hvalidated]
  | some j => cases j <;> simp [Part.of, Judgement.error?, Judgement.fresh, Judgement.children, hj, hvalidated]

/-- What a verdict says of a root is what judging the block for that root alone says. -/
theorem part_ofBlock (hkeys : (Table.keys awaiting).Nodup) (root : RootId) :
    (ofBlock rules raw awaiting roots).part root = Part.of ((Table.get? root awaiting).map
      (Judgement.ofBlock rules raw.length (Block.decode raw) root (roots.get? root))) := by
  rw [part_eq (by rwa [keys_ofBlock]) root_of_mem_judgement, get?_ofBlock]

/-- A root that awaits the block has one judgement. -/
theorem mem_judgements_iff (hkeys : (Table.keys awaiting).Nodup) (hawaits : (root, positions) ∈ awaiting)
    {j : Judgement} : (root, j) ∈ (ofBlock rules raw awaiting roots).judgements ↔
      Judgement.ofBlock rules raw.length (Block.decode raw) root (roots.get? root) positions = j := by
  rw [← Table.get?_eq_some_iff (by rwa [keys_ofBlock]), get?_ofBlock, Table.get?_of_mem hkeys hawaits, Option.map_some,
    Option.some_inj]

/-- A root that is not validated is given neither a shape nor children. -/
theorem nothing_of_not_validated (hkeys : (Table.keys v.judgements).Nodup)
    (hown : ∀ e ∈ v.judgements, ∀ c ∈ e.2.children, c.root = e.1) (h : root ∉ v.validated) :
    root ∉ Table.keys v.schemas ∧ ∀ c ∈ v.children, c.root ≠ root := by
  have hempty : ∀ j, Table.get? root v.judgements = some j → j.fresh = none ∧ j.children = [] := by
    intro j hj
    cases j with
    | valid fresh cs => exact absurd (mem_validated.2 ⟨fresh, cs, Table.mem_of_get? hj⟩) h
    | _ => exact ⟨rfl, rfl⟩
  constructor
  · rw [← Table.get?_eq_none_iff, get?_schemas hkeys, Option.bind_eq_none_iff]
    exact fun j hj => (hempty j hj).1
  · rintro c hc rfl
    rw [children_eq, List.mem_flatMap] at hc
    obtain ⟨⟨other, j⟩, hj, hc⟩ := hc
    obtain rfl : c.root = other := hown _ hj c hc
    rw [(hempty j (Table.get?_of_mem hkeys hj)).2] at hc
    cases hc

/-- A block is judged exactly, and for each root on its own. With the shapes that trees have of the
rules' block size and a 64-bit length, no number is too large on the way, whatever the positions. A root
with a download is reported malformed exactly if the block is no part of its tree, and validated exactly
if it comes apart and fits every position, never both. A shape is reported exactly for the roots that it is
the root block of, and then it is the one it declares; the children reported are those that its links lead
to from every position in turn, and none for a root that is not validated. What is reported of a root
depends on the block, the root's positions and the root's download only. -/
theorem judged_exactly (rules : Rules) (raw : Bytes) (hkeys : (Table.keys awaiting).Nodup)
    (hlaid : ∀ root d s, roots.get? root = some d → d.schema? = some s →
      s.size = rules.size ∧ s.length ≤ Word.max) :
    let v := ofBlock rules raw awaiting roots
    ofBlock? rules raw awaiting roots = some v ∧
    (∀ root d positions, roots.get? root = some d → (root, positions) ∈ awaiting →
      ((∃ e, (root, e) ∈ v.malformed) ↔ Misfits rules d positions raw) ∧
      (root ∈ v.validated ↔ ∃ block s, Fits rules d positions raw block s) ∧
      (∀ s, (root, s) ∈ v.schemas ↔ 0 ∈ positions ∧ ∃ block, Fits rules d positions raw block s) ∧
      ∀ block s, Fits rules d positions raw block s → (v.children.filter fun c => decide (c.root = root)) =
        positions.flatMap fun ix => block.links.zipIdx.map fun (id, i) => ⟨root, id, rules.layout.firstChild ix + i⟩) ∧
    (∀ root, root ∈ v.validated → ∀ e, (root, e) ∉ v.malformed) ∧
    (∀ root, root ∉ v.validated → root ∉ Table.keys v.schemas ∧ ∀ c ∈ v.children, c.root ≠ root) ∧
    (Table.keys v.schemas).Nodup ∧
    ∀ (awaiting' : Awaiting) (roots' : Table RootId Download), (Table.keys awaiting').Nodup →
      ∀ root, Table.get? root awaiting' = Table.get? root awaiting → roots'.get? root = roots.get? root →
        (ofBlock rules raw awaiting' roots').part root = v.part root := by
  intro v
  have hjudgements : (Table.keys v.judgements).Nodup := by rwa [keys_ofBlock]
  have hschemas : (Table.keys v.schemas).Nodup := by
    rw [schemas_eq]
    exact Table.nodup_filterMap hjudgements _
  refine ⟨ofBlock?_eq raw awaiting hlaid, ?_, ?_, ?_, hschemas, ?_⟩
  · intro root d positions hroot hawaits
    have hjudged : ∀ j, (root, j) ∈ v.judgements ↔
        Judgement.ofBlock rules raw.length (Block.decode raw) root (some d) positions = j := by
      intro j
      rw [mem_judgements_iff hkeys hawaits, hroot]
    refine ⟨?_, ?_, ?_, ?_⟩
    · simp only [mem_malformed, hjudged, Judgement.ofBlock_malformed_iff]
    · simp only [mem_validated, hjudged, Judgement.ofBlock_valid_iff]
      constructor
      · rintro ⟨_, _, block, s, hfits, -⟩
        exact ⟨block, s, hfits⟩
      · rintro ⟨block, s, hfits⟩
        exact ⟨_, _, block, s, hfits, rfl, rfl⟩
    · intro s
      rw [← Table.get?_eq_some_iff hschemas, get?_schemas hjudgements, Option.bind_eq_some_iff]
      simp only [Table.get?_eq_some_iff hjudgements, hjudged]
      constructor
      · rintro ⟨j, hj, hfresh⟩
        cases j with
        | valid fresh cs =>
          obtain ⟨block, t, hfits, rfl, -⟩ := Judgement.ofBlock_valid_iff.1 hj
          obtain ⟨hzero, ht⟩ := Option.ite_none_right_eq_some.1 hfresh
          cases ht
          exact ⟨hzero, block, hfits⟩
        | _ => cases hfresh
      · rintro ⟨hzero, block, hfits⟩
        exact ⟨_, Judgement.ofBlock_valid_iff.2 ⟨block, s, hfits, rfl, rfl⟩, if_pos hzero⟩
    · intro block s hfits
      have hvalid := (hjudged _).2 (Judgement.ofBlock_valid_iff.2 ⟨block, s, hfits, rfl, rfl⟩)
      rw [children_of_root hjudgements root_of_mem_judgement, Table.get?_of_mem hjudgements hvalid]
      rfl
  · intro root hvalidated e hmalformed
    obtain ⟨fresh, cs, hvalid⟩ := mem_validated.1 hvalidated
    have hsame := (Table.get?_of_mem hjudgements hvalid).symm.trans
      (Table.get?_of_mem hjudgements (mem_malformed.1 hmalformed))
    cases hsame
  · intro root
    exact nothing_of_not_validated hjudgements root_of_mem_judgement
  · intro awaiting' roots' hkeys' root hawaits hroot
    rw [part_ofBlock hkeys', part_ofBlock hkeys, hawaits, hroot]

end Verdict

end Exact

namespace Verdict

namespace Crossing

def left : RootId := ⟨List.replicate 32 1, rfl⟩

def right : RootId := ⟨List.replicate 32 2, rfl⟩

/-- A root block that links to `left` and `right` and declares 138 bytes of payload. -/
def raw : Bytes := [2, 0] ++ left.bytes ++ right.bytes ++ [139, 0, 0, 0, 0]

/-- One root waits for its root block, the other for the same block at two positions of a larger tree,
the last of which has no links. -/
def awaiting : Awaiting := [(left, [0]), (right, [1, 200])]

/-- The download of the larger tree. -/
def larger : Download := { Download.start right .blockBody 1 with phase := .expanding ⟨Sample.rules.size, 10000⟩ }

def roots : Table RootId Download := [(left, .start left .blockBody 0), (right, larger)]

end Crossing

open Crossing in
/-- The block is the root block of one tree and no part of another, where it would fit the first of the
two positions: the children that it would have there are not reported. -/
theorem judged_exactly_crossing :
    (Table.keys awaiting).Nodup ∧
    (∀ root d s, roots.get? root = some d → d.schema? = some s →
      s.size = Sample.rules.size ∧ s.length ≤ Word.max) ∧
    ofBlock? Sample.rules raw awaiting roots = some (ofBlock Sample.rules raw awaiting roots) ∧
    (ofBlock Sample.rules raw awaiting roots).children = [⟨left, left, 1⟩, ⟨left, right, 2⟩] ∧
    (∃ block s, Fits Sample.rules (.start left .blockBody 0) [0] raw block s) ∧
    Misfits Sample.rules larger [1, 200] raw := by
  have hkeys : (Table.keys awaiting).Nodup := by decide
  have hlaid : ∀ root d s, roots.get? root = some d → d.schema? = some s →
      s.size = Sample.rules.size ∧ s.length ≤ Word.max := by
    intro root d s hroot hschema
    obtain ⟨-, rfl⟩ | ⟨-, rfl⟩ : root = left ∧ d = .start left .blockBody 0 ∨ root = right ∧ d = larger := by
      simpa [roots] using Table.mem_of_get? hroot
    · cases hschema
    · cases hschema
      exact ⟨rfl, by decide⟩
  obtain ⟨hchecked, hexact, -⟩ := judged_exactly Sample.rules raw hkeys hlaid
  have hleft := hexact left (.start left .blockBody 0) [0] (by decide) (by decide)
  have hright := hexact right larger [1, 200] (by decide) (by decide)
  have hvalidated : left ∈ (ofBlock Sample.rules raw awaiting roots).validated := by decide +kernel
  have hmalformed : (right, .unexpectedLinkCount 200 2 0) ∈ (ofBlock Sample.rules raw awaiting roots).malformed := by
    decide +kernel
  exact ⟨hkeys, hlaid, hchecked, by decide +kernel, hleft.2.1.1 hvalidated, hright.1.1 ⟨_, hmalformed⟩⟩

end Verdict

end BlockDag
