/-
The lines of a TOML document that is written line by line. A number in decimal digits and a text in any style
are values that end with their line, so a line with a key and a value says what was written, and a document
says what its lines say, one after the other.
-/
import BlockDag.Config.Written
import BlockDag.Toml.Document
import BlockDag.Toml.Text.RoundTrip

namespace BlockDag.Toml

/-! ## Numbers -/

namespace Number

variable {n : Nat} {cs : List Char}

theorem value?_concat (base : Nat) (digits : List Char) (c : Char) : value? base (digits ++ [c]) =
    (value? base digits).bind fun n => (Bytes.hexDigit? c).bind fun d =>
      if d < base then some (min (base * n + d) ceiling) else none := by
  simp [value?, List.foldlM_append]

/-- The digits of a number make it up again. -/
theorem value?_toDigits (h : n < ceiling) : value? 10 (Nat.toDigits 10 n) = some n := by
  induction n using Nat.strongRecOn with
  | ind n ih =>
    have hlast := Bytes.hexDigit?_digitChar (n % 10) (by omega)
    by_cases hn : n < 10
    · have hone := value?_concat 10 [] (n.digitChar)
      rw [Nat.mod_eq_of_lt hn] at hlast
      rw [Nat.toDigits_of_lt_base hn]
      simp [value?, hlast, hn, h.le]
    · rw [Nat.toDigits_of_base_le (by decide) (by omega), value?_concat, ih (n / 10) (by omega) (by omega), hlast]
      have hmin : min (10 * (n / 10) + n % 10) ceiling = n := by
        rw [Nat.div_add_mod]
        exact Nat.min_eq_left h.le
      simp [hmin, Nat.mod_lt]

/-- Digits without underscores. -/
theorem digits?_of_all {isDigit : Char → Bool} (hn : cs ≠ []) (h : ∀ c ∈ cs, isDigit c = true)
    (hu : isDigit '_' = false) : digits? isDigit cs = some cs := by
  fun_induction digits? isDigit cs with
  | case1 => exact absurd rfl hn
  | case2 c rest hc ih => simp [hu] at h
  | case3 c rest hc => simp [hu] at h
  | case4 c hc => rfl
  | case5 c hc => simp [hc] at h
  | case6 c rest hrest _ hc ih =>
    rw [ih (by rintro rfl; simp_all) fun c hm => h c (List.mem_cons_of_mem _ hm)]
    rfl
  | case7 c rest hrest _ hc => simp [hc] at h

theorem isDigit_of_isDigit {c : Char} (h : c.isDigit = true) : isDigit 10 c = true := by
  have hc : '0' ≤ c ∧ c ≤ '9' := by simpa [Char.isDigit, Char.le_def] using h
  have hl : c.toNat - '0'.toNat < 10 := by
    have := UInt32.le_iff_toNat_le.1 (Char.le_def.1 hc.2)
    have hnine : '9'.val.toNat = 57 := rfl
    have hzero : '0'.toNat = 48 := rfl
    rw [hnine] at this
    change c.toNat ≤ 57 at this
    omega
  rw [isDigit, Bytes.hexDigit?, if_pos hc]
  simpa using hl

/-- Only zero is written with a zero in front. -/
theorem eq_zero_of_head?_toDigits (h : (Nat.toDigits 10 n).head? = some '0') : n = 0 := by
  induction n using Nat.strongRecOn with
  | ind n ih =>
    by_cases hn : n < 10
    · have hdigit : ∀ n < 10, ([n.digitChar].head? = some '0') → n = 0 := by decide
      rw [Nat.toDigits_of_lt_base hn] at h
      exact hdigit n hn h
    · rw [Nat.toDigits_of_base_le (by decide) (by omega), List.head?_append_of_ne_nil _ Nat.toDigits_ne_nil] at h
      have := ih (n / 10) (by omega) h
      omega

/-- A word of digits is a decimal number without a sign. -/
theorem written?_toDigits (n : Nat) :
    written? (Nat.toDigits 10 n) = Int.ofNat <$> decimal? (Nat.toDigits 10 n) := by
  have hdigit : ∀ c ∈ Nat.toDigits 10 n, c.isDigit = true := fun c =>
    Nat.isDigit_of_mem_toDigits (by decide) (by decide)
  have hzero : ∀ c rest, Nat.toDigits 10 n ≠ '0' :: c :: rest := by
    intro c rest h
    have hn := eq_zero_of_head?_toDigits (n := n) (by simp [h])
    subst hn
    simp at h
  generalize Nat.toDigits 10 n = cs at hdigit hzero
  have hsign : sign cs = (false, cs) := by
    rw [sign.eq_def]
    split
    · exact absurd (hdigit '-' (by simp)) (by decide)
    · exact absurd (hdigit '+' (by simp)) (by decide)
    · rfl
  rw [written?.eq_def]
  split
  · exact absurd rfl (hzero _ _)
  · exact absurd rfl (hzero _ _)
  · exact absurd rfl (hzero _ _)
  · rw [hsign]
    rfl

theorem decimal?_toDigits (h : n < ceiling) : decimal? (Nat.toDigits 10 n) = some n := by
  rw [decimal?, if_neg, natural?, digits?_of_all Nat.toDigits_ne_nil
    (fun c hc => isDigit_of_isDigit (Nat.isDigit_of_mem_toDigits (by decide) (by decide) hc)) (by decide)]
  · exact value?_toDigits h
  · rintro ⟨hz, hne⟩
    rw [eq_zero_of_head?_toDigits hz] at hne
    exact hne rfl

/-- A number within 63 bits reads back from its digits. -/
theorem integer?_toDigits (h : n < 0x8000000000000000) : integer? (Nat.toDigits 10 n) = some (Int.ofNat n) := by
  have hc : n < ceiling := by rw [ceiling]; omega
  have hrange : -0x8000000000000000 ≤ Int.ofNat n ∧ Int.ofNat n < 0x8000000000000000 := by
    rw [Int.ofNat_eq_natCast]
    omega
  have hw : written? (Nat.toDigits 10 n) = some (Int.ofNat n) := by
    rw [written?_toDigits, decimal?_toDigits hc]
    rfl
  unfold integer?
  simp only [hw, bind, Option.bind, pure, hrange, and_self, if_true]

end Number

/-! ## Values -/

/-- Characters that `p` holds of are told apart from those from the first on of which it does not. -/
theorem span_at {p : Char → Bool} {front : List Char} {stop : Char} (hf : ∀ c ∈ front, p c = true)
    (hs : p stop = false) (rest : List Char) :
    (front ++ stop :: rest).takeWhile p = front ∧ (front ++ stop :: rest).dropWhile p = stop :: rest := by
  rw [List.takeWhile_append_of_pos hf, List.dropWhile_append_of_pos hf, List.takeWhile_cons_of_neg (by simp [hs]),
    List.dropWhile_cons_of_neg (by simp [hs]), List.append_nil]
  exact ⟨rfl, rfl⟩

theorem skipBlanks_cons {c : Char} (h : isBlank c = false) (cs : List Char) : skipBlanks (c :: cs) = c :: cs :=
  List.dropWhile_cons_of_neg (by simp [h])

/-- Characters that read as a value where a line ends after them. -/
structure ReadsAs (cs : List Char) (value : Item) : Prop where
  /-- The first is no blank. -/
  starts : ∃ c rest, cs = c :: rest ∧ isBlank c = false
  read : ∀ rest, readValue (cs ++ '\n' :: rest) = some (value, '\n' :: rest)

/-- Where no bracket stands in front, there is a text or a word. -/
theorem readValueWithin_of_ne {depth : Nat} {c : Char} (hb : c ≠ '[') (hc : c ≠ '\x7b') (cs : List Char) :
    readValueWithin depth (c :: cs) =
      match Text.read (c :: cs) with
      | some (text, rest) => some (.string text, rest)
      | none => readWord (c :: cs) := by
  rw [readValueWithin.eq_def]
  split
  · simp_all
  · simp_all
  · rfl

theorem Text.head_write (text : String) : ∃ c rest, Text.write text = c :: rest ∧ (c = '\x22' ∨ c = '\x27') := by
  rw [Text.write]
  generalize Text.styleOf text.toList = s
  obtain ⟨escapes, long⟩ := s
  cases escapes <;> cases long <;> exact ⟨_, _, rfl, by decide⟩

/-- A text that is written reads back as itself. -/
theorem ReadsAs.text (text : String) : ReadsAs (Text.write text) (.string text) := by
  obtain ⟨c, cs, hw, hc⟩ := Text.head_write text
  refine ⟨⟨c, cs, hw, by rcases hc with rfl | rfl <;> decide⟩, fun rest => ?_⟩
  have hread : Text.read (Text.write text ++ '\n' :: rest) = some (text, '\n' :: rest) :=
    Text.read_write text (by simp) (by simp)
  rw [hw, List.cons_append] at hread ⊢
  rw [readValue, readValueWithin_of_ne (by rcases hc with rfl | rfl <;> decide)
    (by rcases hc with rfl | rfl <;> decide), hread]

/-- No text begins with anything but a quote. -/
theorem Text.read_eq_none {c : Char} (hd : c ≠ '\x22') (hs : c ≠ '\x27') (cs : List Char) :
    Text.read (c :: cs) = none := by
  rw [Text.read.eq_def]
  split
  · simp_all
  · simp_all
  · rw [Text.readShort.eq_def]
    split <;> simp_all

theorem isWord_of_isDigit {c : Char} (h : c.isDigit = true) : isWord c = true := by
  simp [isWord, Char.isAlphanum, h]

/-- So does a number within 63 bits. -/
theorem ReadsAs.number {n : Nat} (h : n < 0x8000000000000000) :
    ReadsAs (Nat.toDigits 10 n) (.integer (Int.ofNat n)) := by
  have hdigit : ∀ c ∈ Nat.toDigits 10 n, c.isDigit = true := fun c =>
    Nat.isDigit_of_mem_toDigits (by decide) (by decide)
  obtain ⟨c, cs, hcs⟩ := List.exists_cons_of_ne_nil (Nat.toDigits_ne_nil (n := n) (b := 10))
  have hne : ∀ d, d.isDigit = false → c ≠ d := by
    rintro d hd rfl
    simp [hdigit c (by simp [hcs])] at hd
  refine ⟨⟨c, cs, hcs, by simp [isBlank, hne]⟩, fun rest => ?_⟩
  have hword : ∀ c ∈ Nat.toDigits 10 n, isWord c = true := fun c hc => isWord_of_isDigit (hdigit c hc)
  have hend : isWord '\n' = false := by decide
  obtain ⟨htake, hdrop⟩ := span_at hword hend rest
  have hitem : wordItem? (Nat.toDigits 10 n) = some (.integer (Int.ofNat n)) := by
    have htrue : Nat.toDigits 10 n ≠ "true".toList := fun hw => by simp [hcs, hne] at hw
    have hfalse : Nat.toDigits 10 n ≠ "false".toList := fun hw => by simp [hcs, hne] at hw
    rw [wordItem?, if_neg htrue, if_neg hfalse, Number.integer?_toDigits h]
  have htime : skipTimeOfDay ('\n' :: rest) = '\n' :: rest := rfl
  have hread : readWord (Nat.toDigits 10 n ++ '\n' :: rest) = some (.integer (Int.ofNat n), '\n' :: rest) := by
    rw [readWord]
    simp only [htake, hdrop, hitem, htime, bind, Option.bind, pure, ite_self]
  rw [hcs, List.cons_append] at hread ⊢
  rw [readValue, readValueWithin_of_ne (hne _ rfl) (hne _ rfl), Text.read_eq_none (hne _ rfl) (hne _ rfl), hread]

/-! ## Statements -/

/-- A line that says a statement, whatever lines follow. -/
structure LineSays (line : String) (said : Statement) : Prop where
  /-- The line does not begin with space or a comment. -/
  starts : ∃ c cs, line.toList = c :: cs ∧ isBlank c = false ∧ c ≠ '\n' ∧ c ≠ '\r' ∧ c ≠ '#'
  read : ∀ rest, Statement.read (line.toList ++ '\n' :: rest) = some (said, rest)

/-- A key without quotes. -/
def Bare (key : String) : Prop := key.toList.isEmpty = false ∧ key.toList.all isBareKey = true

instance (key : String) : Decidable (Bare key) :=
  inferInstanceAs (Decidable (key.toList.isEmpty = false ∧ key.toList.all isBareKey = true))

theorem Bare.chars {key : String} (h : Bare key) : ∀ c ∈ key.toList, isBareKey c = true := List.all_eq_true.1 h.2

theorem Bare.starts {key : String} (h : Bare key) :
    ∃ c cs, key.toList = c :: cs ∧ ∀ d, isBareKey d = false → c ≠ d := by
  obtain ⟨c, cs, hcs⟩ := List.exists_cons_of_ne_nil (List.isEmpty_eq_false_iff.1 h.1)
  refine ⟨c, cs, hcs, ?_⟩
  rintro d hd rfl
  simp [h.chars c (by simp [hcs])] at hd

/-- A bare key is read up to the sign after it. -/
theorem Bare.readKey {key : String} (h : Bare key) (rest : List Char) :
    readKey (key.toList ++ ' ' :: '=' :: rest) = some ([key], '=' :: rest) := by
  obtain ⟨c, cs, hcs, hne⟩ := h.starts
  have hblank : isBlank c = false := by simp [isBlank, hne ' ' (by decide), hne '\t' (by decide)]
  have hskip : skipBlanks (key.toList ++ ' ' :: '=' :: rest) = key.toList ++ ' ' :: '=' :: rest := by
    rw [hcs, List.cons_append, skipBlanks_cons hblank]
  have hend : isBareKey ' ' = false := by decide
  obtain ⟨htake, hdrop⟩ := span_at h.chars hend ('=' :: rest)
  have hpart : readKeyPart (key.toList ++ ' ' :: '=' :: rest) = some (key, ' ' :: '=' :: rest) := by
    rw [readKeyPart, htake, hdrop, hcs]
    simp only [← hcs, String.ofList_toList]
  have hsign : skipBlanks (' ' :: '=' :: rest) = '=' :: rest := rfl
  rw [Toml.readKey, readKeyWithin, hskip, hpart]
  simp only [bind, Option.bind, hsign]
  rfl

theorem readPair_bare {key : String} {cs : List Char} {item : Item} (hk : Bare key) (hv : ReadsAs cs item)
    (rest : List Char) : readPair readValue (key.toList ++ ' ' :: '=' :: ' ' :: (cs ++ '\n' :: rest)) =
      some (([key], item), '\n' :: rest) := by
  obtain ⟨c, tail, rfl, hblank⟩ := hv.starts
  have hskip : skipBlanks (' ' :: (c :: tail ++ '\n' :: rest)) = c :: tail ++ '\n' :: rest := by
    rw [skipBlanks, List.dropWhile_cons_of_pos (by decide)]
    exact skipBlanks_cons hblank _
  rw [readPair, hk.readKey]
  simp only [bind, Option.bind, expect, if_true, hskip, hv.read, pure]

/-- A line with a key and a value. -/
theorem LineSays.pair {key value : String} {item : Item} (hk : Bare key) (hv : ReadsAs value.toList item) :
    LineSays (key ++ " = " ++ value) (.assign [key] item) := by
  obtain ⟨c, cs, hcs, hne⟩ := hk.starts
  have hline : (key ++ " = " ++ value).toList = key.toList ++ ' ' :: '=' :: ' ' :: value.toList := by
    simp [String.toList_append]
  constructor
  · have hblank : isBlank c = false := by simp [isBlank, hne ' ' (by decide), hne '\t' (by decide)]
    exact ⟨c, cs ++ ' ' :: '=' :: ' ' :: value.toList, by rw [hline, hcs, List.cons_append], hblank,
      hne _ (by decide), hne _ (by decide), hne _ (by decide)⟩
  · intro rest
    have hpair := readPair_bare hk hv rest
    have hend : lineEnd false ('\n' :: rest) = some rest := rfl
    rw [hline, List.append_assoc, List.cons_append, List.cons_append, List.cons_append]
    rw [hcs, List.cons_append] at hpair ⊢
    rw [Statement.read.eq_def]
    split
    · next heq =>
      cases heq
      exact absurd rfl (hne '[' (by decide))
    · simp only [bind, Option.bind, hpair, hend, pure]

/-- What lines say, one after the other; an empty one says nothing. -/
inductive LinesSay : List String → List Statement → Prop
  | nil : LinesSay [] []
  | empty {lines : List String} {said : List Statement} : LinesSay lines said → LinesSay ("" :: lines) said
  | line {line : String} {one : Statement} {lines : List String} {said : List Statement} :
      LineSays line one → LinesSay lines said → LinesSay (line :: lines) (one :: said)

theorem LinesSay.append {lines more : List String} {said others : List Statement} (h : LinesSay lines said)
    (h' : LinesSay more others) : LinesSay (lines ++ more) (said ++ others) := by
  induction h with
  | nil => exact h'
  | empty _ ih => exact .empty ih
  | line hl _ ih => exact .line hl ih

theorem linesText_cons (line : String) (lines : List String) :
    (linesText (line :: lines)).toList = line.toList ++ '\n' :: (linesText lines).toList := by
  simp [linesText, String.join_cons, String.toList_append]

/-- A document of such lines says what they say, in that order. -/
theorem LinesSay.readAll {lines : List String} {said : List Statement} (h : LinesSay lines said) (fuel : Nat)
    (hf : (linesText lines).toList.length < fuel) :
    Statement.readAll fuel (linesText lines).toList = some said := by
  induction h generalizing fuel with
  | nil =>
    obtain ⟨fuel, rfl⟩ := Nat.exists_eq_add_one_of_ne_zero (Nat.ne_zero_of_lt hf)
    rfl
  | @empty lines said _ ih =>
    obtain ⟨fuel, rfl⟩ := Nat.exists_eq_add_one_of_ne_zero (Nat.ne_zero_of_lt hf)
    rw [linesText_cons, show "".toList = [] from rfl, List.nil_append] at hf ⊢
    rw [← ih (fuel + 1) (by simp at hf; omega), Statement.readAll, Statement.readAll]
    rfl
  | @line line one lines said hl _ ih =>
    obtain ⟨fuel, rfl⟩ := Nat.exists_eq_add_one_of_ne_zero (Nat.ne_zero_of_lt hf)
    obtain ⟨c, cs, hcs, hblank, hn, hr, hc⟩ := hl.starts
    have hread := hl.read (linesText lines).toList
    rw [linesText_cons] at hf ⊢
    rw [hcs, List.cons_append] at hread ⊢
    have hskip : skipSpace false (c :: (cs ++ '\n' :: (linesText lines).toList)) =
        some (c :: (cs ++ '\n' :: (linesText lines).toList)) := by
      rw [skipSpace.eq_def]
      simp [hblank, hn, hr, hc]
    rw [Statement.readAll, hskip]
    simp only [bind, Option.bind, hread, ih fuel (by simp [hcs] at hf; omega), pure]

/-- The tables of a document of such lines are those that its statements make up. -/
theorem LinesSay.parse {lines : List String} {said : List Statement} (h : LinesSay lines said)
    (hmark : (linesText lines).toList.head? ≠ some byteOrderMark) :
    Toml.parse (linesText lines) = (said.foldlM Draft.carryOut Draft.empty).map (·.root.entries) := by
  have hread := h.readAll ((linesText lines).toList.length + 1) (Nat.lt_succ_self _)
  unfold Toml.parse
  generalize (linesText lines).toList = cs at hmark hread
  cases cs with
  | nil =>
    simp only [hread, bind, Option.bind, pure]
    cases said.foldlM Draft.carryOut Draft.empty <;> rfl
  | cons c rest =>
    have hc : c ≠ byteOrderMark := by simpa using hmark
    simp only [if_neg hc, hread, bind, Option.bind, pure]
    cases said.foldlM Draft.carryOut Draft.empty <;> rfl

end BlockDag.Toml
