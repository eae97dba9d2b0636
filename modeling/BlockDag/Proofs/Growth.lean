/-
Trees as they grow. A tree is grown below a block if the block is kept, opens at its position, and
all it links to is grown; at a gap nothing has to be there yet. Filling gaps keeps the rest, and a
tree without gaps is laid out by its schema. With the header of its root accepted, such a tree is
the split of a payload within the limits.
-/
import BlockDag.Download.Verdict
import BlockDag.Proofs.Blob
import Mathlib.Data.List.GetD

namespace BlockDag

/-- The tree below the block `id` at position `ix` is kept, but for what is below the gaps. -/
inductive Grown (s : Schema) (kept : BlockId → Bytes → Prop) (gap : BlockId → Nat → Prop) : BlockId → Nat → Prop
  | missing {id ix} : gap id ix → Grown s kept gap id ix
  | block {id ix raw block} : kept id raw → Join.openBlock s ix raw = .ok block →
      (∀ c ∈ Join.linked s ix block.links, Grown s kept gap c.2 c.1) → Grown s kept gap id ix

/-- A tree whose root has the bytes `raw` and is kept, but for what is below the gaps. -/
structure Planted (s : Schema) (kept : BlockId → Bytes → Prop) (gap : BlockId → Nat → Prop) (id : BlockId)
    (raw : Bytes) (block : Block) : Prop where
  root : kept id raw
  opens : Join.openBlock s 0 raw = .ok block
  below : ∀ c ∈ Join.linked s 0 block.links, Grown s kept gap c.2 c.1

namespace Grown

variable {s : Schema} {kept kept' : BlockId → Bytes → Prop} {gap gap' : BlockId → Nat → Prop}
variable {id : BlockId} {ix : Nat}

/-- What grew stays, where blocks are only added and every gap is filled. -/
theorem fill (hk : ∀ id raw, kept id raw → kept' id raw) (hg : ∀ id ix, gap id ix → Grown s kept' gap' id ix)
    (h : Grown s kept gap id ix) : Grown s kept' gap' id ix := by
  induction h with
  | missing hm => exact hg _ _ hm
  | block hr ho _ ih => exact .block (hk _ _ hr) ho ih

/-- The tree in which position `n` has the bytes `raw` and the positions it reaches have the names
`links`. -/
def extend (s : Schema) (tree : Nat → NamedBlock) (n : Nat) (raw : Bytes) (links : List BlockId) :
    Nat → NamedBlock := fun j =>
  if s.reach n ≤ j then (links.getD (j - s.reach n) (tree n).1, [])
  else if j = n then ((tree n).1, raw)
  else tree j

section Extend

variable {tree : Nat → NamedBlock} {n : Nat} {raw : Bytes} {links : List BlockId}

theorem extend_self (h : n < s.reach n) : extend s tree n raw links n = ((tree n).1, raw) := by
  rw [extend, if_neg (Nat.not_le.2 h), if_pos rfl]

theorem extend_of_lt {j : Nat} (h : j < s.reach n) (hj : j ≠ n) : extend s tree n raw links j = tree j := by
  rw [extend, if_neg (Nat.not_le.2 h), if_neg hj]

theorem extend_name {j : Nat} (h : j < s.reach n) : (extend s tree n raw links j).1 = (tree j).1 := by
  by_cases hj : j = n
  · subst hj
    rw [extend_self h]
  · rw [extend_of_lt h hj]

theorem extend_link {i : Nat} (h : i < links.length) :
    (extend s tree n raw links (s.reach n + i)).1 = links[i] := by
  rw [extend, if_pos (Nat.le_add_right _ _), Nat.add_sub_cancel_left, List.getD_eq_getElem _ _ h]

end Extend

/-- Without gaps, the blocks of a level-order prefix of the tree have their places, and those that
the prefix links to are grown. -/
theorem exists_prefix (hs : s.Small) {raw : Bytes} {block : Block}
    (h : Planted s kept (fun _ _ => False) id raw block) {n : Nat} (hn : n ≤ s.totalBlocks) :
    ∃ tree : Nat → NamedBlock, (tree 0).1 = id ∧ (0 < n → (tree 0).2 = raw) ∧
      (∀ ix < s.reach n, Grown s kept (fun _ _ => False) (tree ix).1 ix) ∧
      ∀ ix < n, kept (tree ix).1 (tree ix).2 ∧ ∃ block, Join.openBlock s ix (tree ix).2 = .ok block ∧
        block.links = (s.children ix).map fun c => (tree c).1 := by
  induction n with
  | zero =>
    refine ⟨fun _ => (id, []), rfl, by omega, ?_, fun ix hix => absurd hix (Nat.not_lt_zero ix)⟩
    intro ix hix
    rw [s.reach_zero, Nat.lt_one_iff] at hix
    subst hix
    exact .block h.root h.opens h.below
  | succ n ih =>
    obtain ⟨tree, h0, hraw, hgrown, hplaced⟩ := ih (by omega)
    have hlt := s.lt_reach (show n < s.totalBlocks by omega)
    -- the block at `n`, which at the root is the one that was given
    obtain ⟨bytes, b, hr, ho, hbelow, hroot⟩ : ∃ bytes b, kept (tree n).1 bytes ∧ Join.openBlock s n bytes = .ok b ∧
        (∀ c ∈ Join.linked s n b.links, Grown s kept (fun _ _ => False) c.2 c.1) ∧ (n = 0 → bytes = raw) := by
      rcases Nat.eq_zero_or_pos n with rfl | hpos
      · exact ⟨raw, block, by rw [h0]; exact h.root, h.opens, h.below, fun _ => rfl⟩
      · cases hgrown n hlt with
        | missing hm => exact hm.elim
        | block hr ho hbelow => exact ⟨_, _, hr, ho, hbelow, fun hz => absurd hz (by omega)⟩
    obtain ⟨hlinked, hlen⟩ := Join.linked_of_openBlock ho
    have hchildren := hs.fits.children_eq (show n < s.totalBlocks by omega)
    rw [hchildren, List.length_range'] at hlen
    refine ⟨extend s tree n bytes b.links, by rw [extend_name (by omega), h0], ?_, ?_, ?_⟩
    · intro _
      rcases Nat.eq_zero_or_pos n with rfl | hpos
      · rw [extend_self hlt]
        exact hroot rfl
      · rw [extend_of_lt (by omega) (by omega)]
        exact hraw hpos
    · intro j hj
      by_cases hjn : j < s.reach n
      · rw [extend_name hjn]
        exact hgrown j hjn
      · -- a position reached by `n` itself
        obtain ⟨i, rfl⟩ := Nat.exists_eq_add_of_le (Nat.not_lt.1 hjn)
        have hi : i < b.links.length := by omega
        rw [extend_link hi]
        refine hbelow (s.reach n + i, b.links[i]) ?_
        rw [hlinked, hchildren, List.mem_iff_getElem]
        exact ⟨i, by simp; omega, by simp⟩
    · intro j hj
      by_cases hjn : j = n
      · subst hjn
        rw [extend_self hlt]
        refine ⟨hr, b, ho, ?_⟩
        rw [hchildren]
        apply List.ext_getElem
        · simp [hlen]
        · intro i hi hi'
          rw [List.getElem_map, List.getElem_range', Nat.one_mul, extend_link hi]
      · obtain ⟨hkept, b', hb, hlinks⟩ := hplaced j (by omega)
        rw [extend_of_lt (by omega) hjn]
        refine ⟨hkept, b', hb, hlinks.trans ?_⟩
        apply List.map_congr_left
        intro c hc
        have hc' := (hs.fits.mem_children (show j < s.totalBlocks by omega)).1 hc
        have hreach := s.reach_le_of_le (show j + 1 ≤ n by omega)
        rw [extend_name (by omega)]

end Grown

namespace Planted

variable {s : Schema} {kept kept' : BlockId → Bytes → Prop} {gap gap' : BlockId → Nat → Prop} {id : BlockId}
variable {raw : Bytes} {block : Block}

theorem fill (hk : ∀ id raw, kept id raw → kept' id raw) (hg : ∀ id ix, gap id ix → Grown s kept' gap' id ix)
    (h : Planted s kept gap id raw block) : Planted s kept' gap' id raw block :=
  ⟨hk _ _ h.root, h.opens, fun c hc => (h.below c hc).fill hk hg⟩

/-- A tree without gaps is laid out by its schema, from blocks that are kept. -/
theorem exists_tree (hs : s.Small) (h : Planted s kept (fun _ _ => False) id raw block) :
    ∃ tree : Nat → NamedBlock, tree 0 = (id, raw) ∧ s.Laid tree ∧
      ∀ ix < s.totalBlocks, kept (tree ix).1 (tree ix).2 := by
  obtain ⟨tree, h0, hraw, -, hplaced⟩ := Grown.exists_prefix hs h (Nat.le_refl _)
  exact ⟨tree, Prod.ext h0 (hraw s.totalBlocks_pos), fun ix hix => (hplaced ix hix).2, fun ix hix => (hplaced ix hix).1⟩

end Planted

/-! ## Roots -/

namespace Judgement

variable {rules : Rules} {tag : DataTag} {data : Bytes} {s : Schema}

/-- The data of a root block declare the tree `s`: they start with a header and the tag, and the declared
payload is within the limits of the tag. -/
def Declares (rules : Rules) (tag : DataTag) (data : Bytes) (s : Schema) : Prop :=
  ∃ declared rest limits, Header.decode data = .ok (declared, tag.byte :: rest) ∧
    rules.limits tag = some limits ∧ 0 < declared ∧ declared - 1 ≤ limits.maxSize ∧
    s = Schema.ofDeclared rules.size declared

/-- A root's data is accepted exactly if it declares a tree. -/
theorem rootSchema_eq_ok_iff : rootSchema rules tag data = .ok s ↔ Declares rules tag data s := by
  unfold rootSchema Declares
  cases Header.decode data with
  | error e => simp [bind, Except.bind]
  | ok parts =>
    obtain ⟨declared, rest⟩ := parts
    simp only [bind, Except.bind, Except.ok.injEq, Prod.mk.injEq]
    cases rest with
    | nil => simp
    | cons byte rest =>
      dsimp only
      split
      · next hbyte => simp [hbyte]
      · next hbyte =>
        rw [not_not] at hbyte
        cases rules.limits tag with
        | none => simp
        | some limits =>
          dsimp only
          split
          · next h0 => simp [h0]
          · next h0 =>
            split
            · next hmax =>
              simp only [reduceCtorEq, false_iff, not_exists, not_and]
              rintro _ _ _ ⟨rfl, -⟩ hlim - hle
              cases hlim
              omega
            · next hmax =>
              constructor
              · intro h
                cases h
                exact ⟨declared, rest, limits, ⟨rfl, by rw [hbyte]⟩, rfl, by omega, by omega, rfl⟩
              · rintro ⟨_, _, _, ⟨rfl, -⟩, -, -, -, rfl⟩
                rfl

theorem small_of_rootSchema (h : rootSchema rules tag data = .ok s) : s.Small ∧ s.size = rules.size := by
  obtain ⟨declared, rest, limits, hheader, -, -, -, rfl⟩ := rootSchema_eq_ok_iff.1 h
  obtain ⟨header, henc, -, -⟩ := Header.encode_of_decode hheader
  exact ⟨(Schema.small_ofDeclared _ (Header.length_lt henc).1).1, rfl⟩

variable {tree : Nat → NamedBlock}

/-- A tree whose root is accepted has a payload within the limits. -/
theorem frame_of_rootSchema (hl : s.Laid tree) (h : rootSchema rules tag (Block.dataOf (tree 0).2) = .ok s) :
    ∃ payload limits, rules.limits tag = some limits ∧ payload.length ≤ limits.maxSize ∧
      s = Schema.ofDeclared rules.size (payload.length + 1) ∧
      EncodedBlob.frame tag payload = .ok (s.stream tree) := by
  have hs := (small_of_rootSchema h).1
  have hlen := hl.length_stream hs
  obtain ⟨declared, rest, limits, hheader, hlim, h0, hmax, hS⟩ := rootSchema_eq_ok_iff.1 h
  obtain ⟨header, henc, hfour, hdata⟩ := Header.encode_of_decode hheader
  have hlength := (Schema.small_ofDeclared rules.size (Header.length_lt henc).1).2
  rw [← hS] at hlength
  rw [hs.stream_eq, hdata] at hlen ⊢
  generalize ((s.children 0).flatMap s.subtree).flatMap (fun ix => Block.dataOf (tree ix).2) = back at *
  have hpayload : (rest ++ back).length + 1 = declared := by
    simp only [List.append_assoc, List.cons_append, List.length_append, List.length_cons, hfour, hlength] at hlen ⊢
    omega
  refine ⟨rest ++ back, limits, hlim, by omega, by rw [hpayload, hS], ?_⟩
  rw [EncodedBlob.frame_eq_ok_iff, hpayload]
  exact ⟨header, henc, by simp⟩

/-- The root of a payload within the limits is accepted. -/
theorem rootSchema_of_frame {payload : Bytes} {limits : TagLimits} (hlim : rules.limits tag = some limits)
    (hmax : payload.length ≤ limits.maxSize)
    (hl : (Schema.ofDeclared rules.size (payload.length + 1)).Laid tree)
    (hf : EncodedBlob.frame tag payload = .ok ((Schema.ofDeclared rules.size (payload.length + 1)).stream tree)) :
    rootSchema rules tag (Block.dataOf (tree 0).2) = .ok (Schema.ofDeclared rules.size (payload.length + 1)) := by
  obtain ⟨hs, hlen⟩ := EncodedBlob.small_of_frame rules.size hf
  obtain ⟨header, henc, hheader⟩ := EncodedBlob.frame_eq_ok_iff.1 hf
  have hfive : 5 ≤ (Block.dataOf (tree 0).2).length := by
    rw [hl.length_dataOf (Schema.totalBlocks_pos _)]
    apply Schema.five_le_dataSize_zero
    rw [← hlen, hheader, List.length_append, (Header.length_lt henc).2, List.length_cons]
    simp only [lengthHeaderSize]
    omega
  rw [hs.stream_eq] at hf
  obtain ⟨rest, hdecode, -⟩ := EncodedBlob.decode_of_frame hf hfive
  exact rootSchema_eq_ok_iff.2 ⟨_, rest, limits, hdecode, hlim, Nat.succ_pos _, by simpa using hmax, rfl⟩

end Judgement

end BlockDag
