/-
Reading undoes writing. Each character of a text, in the style that the text is written in, is one step
of the reader, and the steps of a whole text lead to its closing quote.
-/
import BlockDag.Toml.Text.Printer
import BlockDag.Toml.Text.Reader
import Mathlib.Tactic

namespace BlockDag.Toml.Text

/-! ## Scanning step by step -/

/-- Reading `input` gives `text` and leaves `rest`, with any fuel as long as `input`. -/
def Scans (s : TextStyle) (input text rest : List Char) : Prop :=
  ∀ fuel : List Char, input.length ≤ fuel.length → scan s fuel input = some (text, rest)

/-- There is no step where nothing is left. -/
theorem ne_nil_of_step {s : TextStyle} {input : List Char} (h : step s input ≠ .bad) : input ≠ [] :=
  fun hi => h (by rw [hi]; rfl)

/-- A step that ends the text ends the reading. -/
theorem Scans.close {s : TextStyle} {input chars rest : List Char}
    (h : step s input = .close chars rest) : Scans s input chars rest := by
  intro fuel hf
  have hi : input ≠ [] := ne_nil_of_step (s := s) (by simp [h])
  match fuel with
  | [] => exact absurd (List.length_eq_zero_iff.1 (Nat.le_zero.1 hf)) hi
  | _ :: _ => simp [scan, h]

/-- A step that reads some characters puts them in front of the text that follows. -/
theorem Scans.piece {s : TextStyle} {input next chars text rest : List Char}
    (h : step s input = .piece chars next) (hl : next.length < input.length)
    (hn : Scans s next text rest) : Scans s input (chars ++ text) rest := by
  intro fuel hf
  match fuel with
  | [] => simp only [List.length_nil] at hf; omega
  | _ :: fuel => simp [scan, h, hn fuel (by simp at hf; omega)]

theorem Scans.char {s : TextStyle} {input next text rest : List Char} {c : Char}
    (h : step s input = .piece [c] next) (hl : next.length < input.length)
    (hn : Scans s next text rest) : Scans s input (c :: text) rest :=
  Scans.piece h hl hn

/-- A character that stands for itself. -/
theorem step_plain {s : TextStyle} {c : Char} (hm : c ≠ s.mark) (he : s.escapes = true → c ≠ '\\')
    (hp : isPlain c = true ∨ s.long = true ∧ c = '\n') (rest : List Char) :
    step s (c :: rest) = .piece [c] rest := by
  have hb : (decide (c = '\\') && s.escapes) = false := by
    cases hs : s.escapes <;> simp_all
  rcases hp with hp | ⟨hl, rfl⟩
  · simp [step, hm, hb, hp]
  · have : isPlain '\n' = false := by decide
    rw [step, if_neg hm, hb, if_neg Bool.false_ne_true, this, if_neg Bool.false_ne_true, if_pos hl]

/-! ## Hexadecimal digits -/

theorem hexDigit?_upper : ∀ d, d < 16 → Bytes.hexDigit? (Nat.digitChar d).toUpper = some d := by
  decide

theorem hexNumber_hexFour {n : Nat} (h : n < 65536) : hexNumber (hexFour n) = some n := by
  simp only [hexNumber, hexFour, List.map_cons, List.map_nil, List.foldlM_cons, List.foldlM_nil,
    hexDigit?_upper _ (Nat.mod_lt _ (by decide)), Option.map_some, Option.bind_eq_bind,
    Option.bind_some]
  show some _ = some n
  congr 1
  omega

/-- A character as it is written is one step of the reader. -/
theorem step_escaped {s : TextStyle} (he : s.escapes = true) {c : Char} (hc : c ≠ '\x22')
    (rest : List Char) : step s (escaped s.long c ++ rest) = .piece [c] rest := by
  have hm : s.mark = '\x22' := by simp [TextStyle.mark, he]
  have hbs : ∀ cs, step s ('\\' :: cs) = escape s.long cs := by
    intro cs
    simp [step, hm, he]
  unfold escaped
  split
  · subst_vars; rw [List.cons_append, hbs]; rfl
  split
  · subst_vars; rw [List.cons_append, hbs]; rfl
  split
  · subst_vars
    cases hl : s.long with
    | true => exact step_plain (by simp [hm]) (by simp) (Or.inr ⟨hl, rfl⟩) rest
    | false => rw [if_neg Bool.false_ne_true, List.cons_append, hbs]; rfl
  split
  · subst_vars; rw [List.cons_append, hbs]; rfl
  split
  · subst_vars; rw [List.cons_append, hbs]; rfl
  split
  · subst_vars; rw [List.cons_append, hbs]; rfl
  rename_i hbs'
  split
  · rename_i hp
    exact step_plain (by simpa [hm] using hc) (fun _ => hbs') (Or.inl hp) rest
  · rename_i hp
    have hn : c.toNat < 65536 := by
      have : ¬ (' ' ≤ c ∧ c ≠ '\x7f') := by
        intro h
        apply hp
        simp only [isPlain, Bool.or_eq_true, Bool.and_eq_true, decide_eq_true_eq]
        exact Or.inr h
      by_cases h1 : ' ' ≤ c
      · have h2 : c = '\x7f' := by
          by_contra h2
          exact this ⟨h1, h2⟩
        subst h2; decide
      · have : c.toNat < ' '.toNat := by
          simpa [Char.le_def, UInt32.le_iff_toNat_le] using h1
        have h3 : ' '.toNat = 32 := rfl
        omega
    have hlen : (hexFour c.toNat).length = 4 := rfl
    rw [List.cons_append, hbs]
    show numbered 4 (hexFour c.toNat ++ rest) = _
    have ht : (hexFour c.toNat ++ rest).take 4 = hexFour c.toNat := by
      rw [← hlen, List.take_left]
    have hd : (hexFour c.toNat ++ rest).drop 4 = rest := by
      rw [← hlen, List.drop_left]
    have hv : c.toNat.isValidChar := c.valid
    simp [numbered, ht, hd, hlen, hexNumber_hexFour hn, scalar?, hv, Char.ofNat_toNat]

/-! ## Quotes -/

/-- The quote closes a short text. -/
theorem step_mark_short {s : TextStyle} (hl : s.long = false) (rest : List Char) :
    step s (s.mark :: rest) = .close [] rest := by
  simp [step, hl]

/-- A quote that two others do not follow belongs to a long text. -/
theorem step_mark_long {s : TextStyle} (hl : s.long = true) {rest : List Char}
    (h : rest.take 2 ≠ [s.mark, s.mark]) : step s (s.mark :: rest) = .piece [s.mark] rest := by
  simp [step, hl, h]

/-- Three quotes close a long text, and up to two in front of them belong to it. -/
theorem step_marks {s : TextStyle} (hl : s.long = true) {k : Nat} (hk : k ≤ 2) {rest : List Char}
    (hr : rest.head? ≠ some s.mark) :
    step s (List.replicate k s.mark ++ s.mark :: s.mark :: s.mark :: rest) =
      .close (List.replicate k s.mark) rest := by
  have ht : rest.takeWhile (fun c => decide (c = s.mark)) = [] := by
    cases rest with
    | nil => rfl
    | cons c rest =>
      have : c ≠ s.mark := by simpa using hr
      simp [this]
  have : k = 0 ∨ k = 1 ∨ k = 2 := by omega
  rcases this with rfl | rfl | rfl <;> simp [step, hl, closeLong, ht, List.replicate]

/-! ## Texts with escapes -/

theorem escaped_eq_cons (long : Bool) {c : Char} (hc : c ≠ '\x22') :
    ∃ d ds, escaped long c = d :: ds ∧ d ≠ '\x22' := by
  unfold escaped
  repeat' split
  all_goals exact ⟨_, _, rfl, by simp_all⟩

/-- A character that is no quote, as it is written, reads as itself. -/
theorem Scans.escaped {s : TextStyle} (he : s.escapes = true) {c : Char} (hc : c ≠ '\x22')
    {next text rest : List Char} (h : Scans s next text rest) :
    Scans s (escaped s.long c ++ next) (c :: text) rest := by
  obtain ⟨d, ds, hd, -⟩ := escaped_eq_cons s.long hc
  exact Scans.piece (step_escaped he hc next) (by rw [hd]; simp) h

/-- A quote after a backslash reads as a quote. -/
theorem Scans.escapedMark {s : TextStyle} (he : s.escapes = true) {next text rest : List Char}
    (h : Scans s next text rest) : Scans s ('\\' :: '\x22' :: next) ('\x22' :: text) rest := by
  have hm : s.mark = '\x22' := by simp [TextStyle.mark, he]
  exact Scans.char (by simp [step, hm, he, escape]) (by simp) h

/-- A quote of a long text that two others do not follow reads as itself. -/
theorem Scans.loneMark {s : TextStyle} (hl : s.long = true) {next text rest : List Char}
    (hn : next.take 2 ≠ [s.mark, s.mark]) (h : Scans s next text rest) :
    Scans s (s.mark :: next) (s.mark :: text) rest :=
  Scans.piece (step_mark_long hl hn) (by simp) h

/-- A short text with escapes reads back, whatever follows it. -/
theorem scans_escapedText_short (rest : List Char) : ∀ (run : Nat) (cs : List Char),
    Scans .basic (escapedText false run cs ++ '\x22' :: rest) cs rest
  | run, [] => .close (step_mark_short rfl rest)
  | run, c :: cs => by
    have ih := scans_escapedText_short rest 0 cs
    by_cases hc : c = '\x22'
    · subst hc
      simpa [escapedText] using Scans.escapedMark (s := .basic) rfl ih
    · rw [escapedText, if_neg hc, List.append_assoc]
      exact Scans.escaped (s := .basic) rfl hc ih

/-- Two characters of which the second is no quote are not two quotes. -/
theorem take_two_ne {m d : Char} (hd : d ≠ m) (pre cs : List Char) (hp : pre.length ≤ 1) :
    (pre ++ d :: cs).take 2 ≠ [m, m] := by
  match pre with
  | [] => simp [hd]
  | [c] => simp [hd]
  | _ :: _ :: _ => simp at hp

/-- A long text with escapes reads back, unless a quote follows it. No three of its own quotes stand in a
row, since the third is escaped. -/
theorem scans_escapedText_long {rest : List Char} (hr : rest.head? ≠ some '\x22') :
    ∀ (cs : List Char),
    Scans .longBasic (escapedText true 0 cs ++ '\x22' :: '\x22' :: '\x22' :: rest) cs rest
  | [] => .close (step_marks (s := .longBasic) (k := 0) rfl (by decide) hr)
  | c :: cs => by
    by_cases hc : c = '\x22'
    · subst hc
      match cs with
      | [] => exact .close (step_marks (s := .longBasic) (k := 1) rfl (by decide) hr)
      | d :: ds =>
        by_cases hd : d = '\x22'
        · subst hd
          match ds with
          | [] => exact .close (step_marks (s := .longBasic) (k := 2) rfl (by decide) hr)
          | e :: es =>
            by_cases he : e = '\x22'
            · subst he
              have ih := Scans.escapedMark (s := .longBasic) rfl (scans_escapedText_long hr es)
              have h2 := Scans.loneMark (s := .longBasic) rfl
                (take_two_ne (by decide : '\\' ≠ '\x22') [] _ (by decide)) ih
              exact Scans.loneMark (s := .longBasic) rfl
                (take_two_ne (by decide : '\\' ≠ '\x22') ['\x22'] _ (by decide)) h2
            · have ih := Scans.escaped (s := .longBasic) rfl he (scans_escapedText_long hr es)
              have hw : escapedText true 0 ('\x22' :: '\x22' :: e :: es) =
                  '\x22' :: '\x22' :: (escaped true e ++ escapedText true 0 es) := by
                simp [escapedText, he]
              obtain ⟨f, fs, hf, hne⟩ := escaped_eq_cons true he
              have h2 := Scans.loneMark (s := .longBasic) rfl (by
                show List.take 2 (escaped true e ++ _) ≠ _
                rw [hf]; exact take_two_ne hne [] _ (by decide)) ih
              have h3 := Scans.loneMark (s := .longBasic) rfl (by
                show List.take 2 ('\x22' :: (escaped true e ++ _)) ≠ _
                rw [hf]; exact take_two_ne hne ['\x22'] _ (by decide)) h2
              rw [hw, List.cons_append, List.cons_append, List.append_assoc]
              exact h3
        · have ih := Scans.escaped (s := .longBasic) rfl hd (scans_escapedText_long hr ds)
          have hw : escapedText true 0 ('\x22' :: d :: ds) =
              '\x22' :: (escaped true d ++ escapedText true 0 ds) := by
            simp [escapedText, hd]
          obtain ⟨f, fs, hf, hne⟩ := escaped_eq_cons true hd
          have h2 := Scans.loneMark (s := .longBasic) rfl (by
            show List.take 2 (escaped true d ++ _) ≠ _
            rw [hf]; exact take_two_ne hne [] _ (by decide)) ih
          rw [hw, List.cons_append, List.append_assoc]
          exact h2
    · rw [escapedText, if_neg hc, List.append_assoc]
      exact Scans.escaped (s := .longBasic) rfl hc (scans_escapedText_long hr cs)

/-! ## Texts without escapes -/

/-- The run in front counts. -/
theorem longestRun_ge (m : Char) : ∀ (run : Nat) (cs : List Char), run ≤ longestRun m run cs
  | run, [] => Nat.le_refl run
  | run, c :: cs => by
    unfold longestRun
    split
    · exact Nat.le_trans (Nat.le_succ run) (longestRun_ge m (run + 1) cs)
    · exact Nat.le_max_left _ _

/-- Where no quote may stand, none does. -/
theorem not_mem_of_longestRun {m : Char} : ∀ {run : Nat} {cs : List Char},
    longestRun m run cs ≤ 0 → m ∉ cs
  | run, [], _ => by simp
  | run, c :: cs, h => by
    unfold longestRun at h
    split at h
    · exact absurd (Nat.le_trans (longestRun_ge m (run + 1) cs) h) (by omega)
    · next hc =>
      have := not_mem_of_longestRun (Nat.le_trans (Nat.le_max_right _ _) h)
      simp [this, Ne.symm hc]

/-- A character that a style without escapes can hold. -/
theorem isPlain_of_mem {cs : List Char} (h : hasControls cs = false) {c : Char} (hc : c ∈ cs) :
    isPlain c = true ∨ c = '\n' := by
  simp only [hasControls, List.any_eq_false, Bool.and_eq_true, decide_eq_true_eq, not_and,
    Decidable.not_not, Bool.not_eq_true'] at h
  cases hp : isPlain c with
  | true => exact Or.inl rfl
  | false => exact Or.inr (h c hc hp)

/-- A short text without escapes reads back if it has no quote of its own. -/
theorem scans_literal_short (rest : List Char) : ∀ (cs : List Char),
    (∀ c ∈ cs, isPlain c = true ∧ c ≠ '\x27') → Scans .literal (cs ++ '\x27' :: rest) cs rest
  | [], _ => .close (step_mark_short rfl rest)
  | c :: cs, h => by
    obtain ⟨hp, hm⟩ := h c (by simp)
    exact Scans.char (step_plain hm (by simp [TextStyle.literal]) (Or.inl hp) _)
      (by simp) (scans_literal_short rest cs fun d hd => h d (by simp [hd]))

/-- A long text without escapes reads back if it has no three quotes in a row. -/
theorem scans_literal_long {rest : List Char} (hr : rest.head? ≠ some '\x27') :
    ∀ (cs : List Char), (∀ c ∈ cs, isPlain c = true ∨ c = '\n') → longestRun '\x27' 0 cs ≤ 2 →
    Scans .longLiteral (cs ++ '\x27' :: '\x27' :: '\x27' :: rest) cs rest
  | [], _, _ => .close (step_marks (s := .longLiteral) (k := 0) rfl (by decide) hr)
  | c :: cs, h, hn => by
    have plain : ∀ d ∈ c :: cs, d ≠ '\x27' → ∀ next,
        step .longLiteral (d :: next) = .piece [d] next :=
      fun d hd hm next => step_plain hm (by simp [TextStyle.longLiteral])
        ((h d hd).imp id fun e => ⟨rfl, e⟩) next
    by_cases hc : c = '\x27'
    · subst hc
      match cs with
      | [] => exact .close (step_marks (s := .longLiteral) (k := 1) rfl (by decide) hr)
      | d :: ds =>
        by_cases hd : d = '\x27'
        · subst hd
          match ds with
          | [] => exact .close (step_marks (s := .longLiteral) (k := 2) rfl (by decide) hr)
          | e :: es =>
            by_cases he : e = '\x27'
            · subst he
              have := longestRun_ge '\x27' (0 + 1 + 1 + 1) es
              simp only [longestRun, if_pos] at hn
              omega
            · simp only [longestRun, if_pos, if_neg he] at hn
              have ih := Scans.piece (plain e (by simp) he _) (by simp)
                (scans_literal_long hr es (fun c hc => h c (by simp [hc])) (by omega))
              have h2 := Scans.loneMark (s := .longLiteral) rfl (take_two_ne he [] _ (by decide)) ih
              exact Scans.loneMark (s := .longLiteral) rfl (take_two_ne he ['\x27'] _ (by decide)) h2
        · simp only [longestRun, if_pos, if_neg hd] at hn
          have ih := Scans.piece (plain d (by simp) hd _) (by simp)
            (scans_literal_long hr ds (fun c hc => h c (by simp [hc])) (by omega))
          exact Scans.loneMark (s := .longLiteral) rfl (take_two_ne hd [] _ (by decide)) ih
    · simp only [longestRun, if_neg hc] at hn
      exact Scans.piece (plain c (by simp) hc _) (by simp)
        (scans_literal_long hr cs (fun c hc => h c (by simp [hc])) (by omega))

/-! ## Whole texts -/

theorem readAfterMarks_eq {s : TextStyle} {input text rest : List Char} (h : Scans s input text rest) :
    readAfterMarks s input = some (String.ofList text, rest) := by
  simp [readAfterMarks, h input (Nat.le_refl _)]

/-- A quote that two more do not follow begins a short text. -/
theorem read_basic {cs : List Char} (h : cs.take 2 ≠ ['\x22', '\x22']) :
    read ('\x22' :: cs) = readAfterMarks .basic cs := by
  unfold read
  split
  · next heq => exact absurd (by rw [(List.cons.inj heq).2]; rfl) h
  · next heq => exact absurd (List.cons.inj heq).1 (by decide)
  · rfl

theorem read_literal {cs : List Char} (h : cs.take 2 ≠ ['\x27', '\x27']) :
    read ('\x27' :: cs) = readAfterMarks .literal cs := by
  unfold read
  split
  · next heq => exact absurd (List.cons.inj heq).1 (by decide)
  · next heq => exact absurd (by rw [(List.cons.inj heq).2]; rfl) h
  · rfl

/-- What stands between short quotes does not start with one, so it and the closing quote are not two
quotes unless it is empty. -/
theorem take_two_content {m : Char} {content rest : List Char} (hc : content.head? ≠ some m)
    (hr : rest.head? ≠ some m) : (content ++ m :: rest).take 2 ≠ [m, m] := by
  cases content with
  | nil =>
    cases rest with
    | nil => simp
    | cons c rest => simpa using hr
  | cons c content => exact take_two_ne (by simpa using hc) [] _ (by decide)

theorem head_escapedText_short (cs : List Char) : (escapedText false 0 cs).head? ≠ some '\x22' := by
  cases cs with
  | nil => simp [escapedText]
  | cons c cs =>
    by_cases hc : c = '\x22'
    · subst hc; simp [escapedText]
    · obtain ⟨d, ds, hd, hne⟩ := escaped_eq_cons false hc
      simpa [escapedText, hc, hd] using hne

/-- An end of line in front of a long text is left aside, and a text without lines starts with none. -/
theorem skipLineEnd_lead {lines : Bool} {content : List Char}
    (h : lines = false → content.head? ≠ some '\n' ∧ content.head? ≠ some '\r') :
    skipLineEnd ((if true && lines then ['\n'] else []) ++ content) = content := by
  cases lines with
  | true => rfl
  | false =>
    obtain ⟨hn, hr⟩ := h rfl
    show skipLineEnd content = content
    unfold skipLineEnd
    split
    · simp at hn
    · simp at hr
    · rfl

theorem read_writeIn_basic (cs : List Char) {rest : List Char} (hr : rest.head? ≠ some '\x22') :
    read (writeIn .basic cs ++ rest) = some (String.ofList cs, rest) := by
  have hw : writeIn .basic cs ++ rest = '\x22' :: (escapedText false 0 cs ++ '\x22' :: rest) := by
    simp [writeIn, contentIn, TextStyle.basic, TextStyle.marks, TextStyle.mark]
  rw [hw, read_basic (take_two_content (head_escapedText_short cs) hr)]
  exact readAfterMarks_eq (scans_escapedText_short rest 0 cs)

theorem read_writeIn_literal {cs : List Char} (h : Fits .literal cs) {rest : List Char}
    (hr : rest.head? ≠ some '\x27') :
    read (writeIn .literal cs ++ rest) = some (String.ofList cs, rest) := by
  obtain ⟨hc, hl, -, hm⟩ := h
  have hm : '\x27' ∉ cs := not_mem_of_longestRun hm
  have hl : '\n' ∉ cs := by simpa [hasLines] using hl rfl
  have hw : writeIn .literal cs ++ rest = '\x27' :: (cs ++ '\x27' :: rest) := by
    simp [writeIn, contentIn, TextStyle.literal, TextStyle.marks, TextStyle.mark]
  have head : cs.head? ≠ some '\x27' := fun e => hm (List.mem_of_mem_head? e)
  rw [hw, read_literal (take_two_content head hr)]
  refine readAfterMarks_eq (scans_literal_short rest cs fun c hcs => ⟨?_, fun e => hm (e ▸ hcs)⟩)
  exact (isPlain_of_mem hc hcs).resolve_right fun e => hl (e ▸ hcs)

theorem head_escapedText_long {cs : List Char} (h : hasLines cs = false) {tail : List Char} :
    (escapedText true 0 cs ++ '\x22' :: tail).head? ≠ some '\n' ∧
      (escapedText true 0 cs ++ '\x22' :: tail).head? ≠ some '\r' := by
  cases cs with
  | nil => simp [escapedText]
  | cons c cs =>
    have hn : c ≠ '\n' := by
      rintro rfl
      simp [hasLines] at h
    by_cases hc : c = '\x22'
    · subst hc; simp [escapedText]
    · rw [escapedText, if_neg hc]
      unfold escaped
      repeat' split
      all_goals simp_all

theorem read_writeIn_longBasic (cs : List Char) {rest : List Char} (hr : rest.head? ≠ some '\x22') :
    read (writeIn .longBasic cs ++ rest) = some (String.ofList cs, rest) := by
  have hw : writeIn .longBasic cs ++ rest = '\x22' :: '\x22' :: '\x22' ::
      ((if true && hasLines cs then ['\n'] else []) ++
        (escapedText true 0 cs ++ '\x22' :: '\x22' :: '\x22' :: rest)) := by
    simp [writeIn, contentIn, TextStyle.longBasic, TextStyle.marks, TextStyle.mark, List.replicate]
  rw [hw, read, skipLineEnd_lead (fun h => head_escapedText_long h)]
  exact readAfterMarks_eq (scans_escapedText_long hr cs)

theorem read_writeIn_longLiteral {cs : List Char} (h : Fits .longLiteral cs) {rest : List Char}
    (hr : rest.head? ≠ some '\x27') :
    read (writeIn .longLiteral cs ++ rest) = some (String.ofList cs, rest) := by
  obtain ⟨hc, -, -, hm⟩ := h
  have hw : writeIn .longLiteral cs ++ rest = '\x27' :: '\x27' :: '\x27' ::
      ((if true && hasLines cs then ['\n'] else []) ++
        (cs ++ '\x27' :: '\x27' :: '\x27' :: rest)) := by
    simp [writeIn, contentIn, TextStyle.longLiteral, TextStyle.marks, TextStyle.mark, List.replicate]
  have head : hasLines cs = false →
      (cs ++ '\x27' :: '\x27' :: '\x27' :: rest).head? ≠ some '\n' ∧
        (cs ++ '\x27' :: '\x27' :: '\x27' :: rest).head? ≠ some '\r' := by
    intro hl
    cases cs with
    | nil => simp
    | cons c cs =>
      have hn : c ≠ '\n' := by
        rintro rfl
        simp [hasLines] at hl
      have hp := (isPlain_of_mem hc (c := c) (by simp)).resolve_right hn
      refine ⟨by simpa using hn, ?_⟩
      rintro e
      have : c = '\r' := by simpa using e
      subst this
      exact absurd hp (by decide)
  rw [hw, read, skipLineEnd_lead head]
  exact readAfterMarks_eq (scans_literal_long hr cs (fun c h => isPlain_of_mem hc h) hm)

/-- The style of a text is one that reads it back. -/
theorem styleOf_cases (cs : List Char) :
    styleOf cs = .basic ∨ styleOf cs = .longBasic ∨
      styleOf cs = .literal ∧ Fits .literal cs ∨ styleOf cs = .longLiteral ∧ Fits .longLiteral cs := by
  unfold styleOf
  by_cases h1 : Fits .basic cs
  · simp [List.find?, h1]
  by_cases h2 : Fits .literal cs
  · simp [List.find?, h1, h2]
  by_cases h3 : Fits .longBasic cs
  · simp [List.find?, h1, h2, h3]
  by_cases h4 : Fits .longLiteral cs
  · simp [List.find?, h1, h2, h3, h4]
  · simp only [List.find?, h1, h2, h3, h4, decide_false, Option.getD_none]
    split <;> simp

/-- Reading undoes writing, before anything that is no quote. -/
theorem read_write (text : String) {rest : List Char} (h2 : rest.head? ≠ some '\x22')
    (h1 : rest.head? ≠ some '\x27') : read (write text ++ rest) = some (text, rest) := by
  have hs : String.ofList text.toList = text := by simp
  rcases styleOf_cases text.toList with e | e | ⟨e, hf⟩ | ⟨e, hf⟩ <;> rw [write, e]
  · rw [read_writeIn_basic _ h2, hs]
  · rw [read_writeIn_longBasic _ h2, hs]
  · rw [read_writeIn_literal hf h1, hs]
  · rw [read_writeIn_longLiteral hf h1, hs]

end BlockDag.Toml.Text
