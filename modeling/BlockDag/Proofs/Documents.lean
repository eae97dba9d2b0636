/-
Documents of a node's settings. From any document in which the settings stand under their names they are read
again. One such document is written line by line: each line says what it was written for, and carried out the
lines make up the tables of the settings.
-/
import BlockDag.Config.Load
import BlockDag.Proofs.Lines

namespace BlockDag

open Toml

/-- The number is an integer that a document can have. -/
def Storable (n : Nat) : Prop := n < 0x8000000000000000

instance (n : Nat) : Decidable (Storable n) := inferInstanceAs (Decidable (n < 0x8000000000000000))

/-! ## What a document has to show -/

namespace TagSettings

/-- The fields of a table are the limits of a tag. -/
structure ShownBy (t : TagSettings) (entries : Toml.Entries) : Prop where
  tag : entries.get? "tag" = some (.string t.tag.name)
  maxSize : entries.get? "max_size" = some (.integer (Int.ofNat t.maxSize))
  timeoutSecs : entries.get? "download_timeout_secs" = some (.integer (Int.ofNat t.timeoutSecs))

theorem ofItem?_of_shown {t : TagSettings} {entries : Toml.Entries} (h : t.ShownBy entries) (origin : Origin) :
    ofItem? (.table origin entries) = some t := by
  obtain ⟨tag, maxSize, timeoutSecs⟩ := t
  cases tag
  simp [ofItem?, Item.fields?, h.tag, h.maxSize, h.timeoutSecs, Item.tag?, Item.natural?, DataTag.name, DataTag.ofName?]

end TagSettings

namespace DownloaderSettings

/-- An item is a list of tables that are the limits of these tags. -/
def TagsShownBy (tags : List TagSettings) (item : Item) : Prop :=
  ∃ items, item.items? = some items ∧
    List.Forall₂ (fun t item => ∃ origin entries, item = .table origin entries ∧ t.ShownBy entries) tags items

theorem tagsOfItem?_of_shown {tags : List TagSettings} {item : Item} (h : TagsShownBy tags item) :
    tagsOfItem? item = some tags := by
  obtain ⟨items, hitems, h⟩ := h
  rw [tagsOfItem?, hitems, Option.bind_eq_bind, Option.bind_some]
  clear hitems
  induction h with
  | nil => rfl
  | cons ht _ ih =>
    obtain ⟨origin, entries, rfl, ht⟩ := ht
    rw [List.mapM_cons, TagSettings.ofItem?_of_shown ht, ih]
    rfl

/-- The fields of a table are the settings of a downloader. -/
structure ShownBy (s : DownloaderSettings) (entries : Toml.Entries) : Prop where
  maxBlockSize : entries.get? "max_block_size" = some (.integer (Int.ofNat s.maxBlockSize))
  tags : ∃ item, entries.get? "tags" = some item ∧ TagsShownBy s.tags item

theorem ofItem?_of_shown {s : DownloaderSettings} {entries : Toml.Entries} (h : s.ShownBy entries) (origin : Origin) :
    ofItem? (.table origin entries) = some s := by
  obtain ⟨item, hitem, htags⟩ := h.tags
  simp [ofItem?, Item.fields?, h.maxBlockSize, hitem, orDefault, Item.natural?, tagsOfItem?_of_shown htags]

end DownloaderSettings

namespace Settings

/-- The tables of a document are the settings. -/
structure ShownBy (s : Settings) (entries : Toml.Entries) : Prop where
  storage : ∃ origin storage, entries.get? "storage" = some (.table origin storage) ∧
    Table.get? "block_path" storage = some (.string s.blockPath)
  downloader : ∃ origin downloader, entries.get? "downloader" = some (.table origin downloader) ∧
    s.downloader.ShownBy downloader

/-- Settings are read from a document that shows them, whatever the defaults are. -/
theorem ofItem?_of_shown (default : Settings) {s : Settings} {entries : Toml.Entries} (h : s.ShownBy entries) :
    ofItem? default (.table .header entries) = some s := by
  obtain ⟨_, storage, hstorage, hpath⟩ := h.storage
  obtain ⟨_, downloader, hdownloader, hs⟩ := h.downloader
  simp [ofItem?, Item.fields?, hstorage, hdownloader, orDefault, blockPathOfItem?, hpath, Item.text?,
    DownloaderSettings.ofItem?_of_shown hs]

/-- A text is a document of the settings. -/
def WrittenIn (s : Settings) (text : String) : Prop := ∃ entries, Toml.parse text = some entries ∧ s.ShownBy entries

theorem parse_of_written (default : Settings) {s : Settings} {text : String} (h : s.WrittenIn text) :
    parse default text = some s := by
  obtain ⟨entries, hparse, hs⟩ := h
  rw [parse, hparse]
  exact ofItem?_of_shown default hs

end Settings

/-! ## What the lines say -/

theorem says_textLine {key : String} (hk : Bare key) (text : String) :
    LineSays (textLine key text) (.assign [key] (.string text)) := by
  refine .pair hk ?_
  rw [String.toList_ofList]
  exact .text text

theorem says_numberLine {key : String} (hk : Bare key) {n : Nat} (hn : Storable n) :
    LineSays (numberLine key n) (.assign [key] (.integer (Int.ofNat n))) := by
  refine .pair hk ?_
  rw [Nat.toString_eq_repr, Nat.toList_repr]
  exact .number hn

namespace TagSettings

/-- The limits of a tag as the statements of a document. -/
def statements (t : TagSettings) : List Statement :=
  [.nextHeader ["downloader", "tags"], .assign ["tag"] (.string t.tag.name),
    .assign ["max_size"] (.integer (Int.ofNat t.maxSize)),
    .assign ["download_timeout_secs"] (.integer (Int.ofNat t.timeoutSecs))]

theorem lines_say {t : TagSettings} (h : Storable t.maxSize ∧ Storable t.timeoutSecs) :
    LinesSay t.lines t.statements := by
  have hheader : LineSays "[[downloader.tags]]" (.nextHeader ["downloader", "tags"]) :=
    ⟨⟨_, _, rfl, by decide⟩, fun _ => rfl⟩
  exact .empty (.line hheader (.line (says_textLine (by decide) _)
    (.line (says_numberLine (by decide) h.1) (.line (says_numberLine (by decide) h.2) .nil))))

/-- The limits of a tag as the entries of a table. -/
def entries (t : TagSettings) : Toml.Entries :=
  [("tag", .string t.tag.name), ("max_size", .integer (Int.ofNat t.maxSize)),
    ("download_timeout_secs", .integer (Int.ofNat t.timeoutSecs))]

theorem shown_entries (t : TagSettings) : t.ShownBy t.entries := ⟨rfl, rfl, rfl⟩

end TagSettings

namespace DownloaderSettings

/-- The settings of a downloader as the entries of a table. -/
def entries (s : DownloaderSettings) : Toml.Entries :=
  [("max_block_size", .integer (Int.ofNat s.maxBlockSize)),
    ("tags", if s.tags = [] then .array [] else .tables (s.tags.map TagSettings.entries))]

theorem shown_entries (s : DownloaderSettings) : s.ShownBy s.entries := by
  refine ⟨rfl, _, rfl, ?_⟩
  by_cases hnone : s.tags = []
  · rw [if_pos hnone, hnone]
    exact ⟨[], rfl, .nil⟩
  · rw [if_neg hnone]
    refine ⟨_, rfl, ?_⟩
    rw [List.forall₂_map_right_iff, List.forall₂_map_right_iff, List.forall₂_same]
    exact fun t _ => ⟨.header, t.entries, rfl, t.shown_entries⟩

end DownloaderSettings

namespace Settings

/-- The numbers are integers that a document can have. -/
structure AllStorable (s : Settings) : Prop where
  maxBlockSize : Storable s.downloader.maxBlockSize
  tags : ∀ t ∈ s.downloader.tags, Storable t.maxSize ∧ Storable t.timeoutSecs

/-- Settings as the statements of a document. -/
def statements (s : Settings) : List Statement :=
  [.header ["storage"], .assign ["block_path"] (.string s.blockPath), .header ["downloader"],
    .assign ["max_block_size"] (.integer (Int.ofNat s.downloader.maxBlockSize))] ++
    (if s.downloader.tags = [] then [.assign ["tags"] (.array [])]
    else s.downloader.tags.flatMap TagSettings.statements)

theorem tags_say {tags : List TagSettings} (h : ∀ t ∈ tags, Storable t.maxSize ∧ Storable t.timeoutSecs) :
    LinesSay (tags.flatMap TagSettings.lines) (tags.flatMap TagSettings.statements) := by
  induction tags with
  | nil => exact .nil
  | cons t tags ih =>
    exact (TagSettings.lines_say (h t List.mem_cons_self)).append (ih fun t ht => h t (List.mem_cons_of_mem _ ht))

theorem lines_say {s : Settings} (h : s.AllStorable) : LinesSay s.lines s.statements := by
  have hstorage : LineSays "[storage]" (.header ["storage"]) := ⟨⟨_, _, rfl, by decide⟩, fun _ => rfl⟩
  have hdownloader : LineSays "[downloader]" (.header ["downloader"]) := ⟨⟨_, _, rfl, by decide⟩, fun _ => rfl⟩
  have hnone : LineSays "tags = []" (.assign ["tags"] (.array [])) := ⟨⟨_, _, rfl, by decide⟩, fun _ => rfl⟩
  refine .line hstorage (.line (says_textLine (by decide) _) (.empty (.line hdownloader
    (.line (says_numberLine (by decide) h.maxBlockSize) ?_))))
  split
  · exact .line hnone .nil
  · exact tags_say h.tags

/-! ## What they make up -/

/-- The document as far as the tables `tags` were opened, the last by the header `opened`. -/
def draft (s : Settings) (tags : List Toml.Entries) (opened : List String) : Draft where
  root := ⟨.header, [("storage", .table .header [("block_path", .string s.blockPath)]),
    ("downloader", .table .header (("max_block_size", .integer (Int.ofNat s.downloader.maxBlockSize)) ::
      if tags = [] then [] else [("tags", .tables tags)]))]⟩
  opened := opened

theorem draft_begun (s : Settings) :
    [Statement.header ["storage"], .assign ["block_path"] (.string s.blockPath), .header ["downloader"],
      .assign ["max_block_size"] (.integer (Int.ofNat s.downloader.maxBlockSize))].foldlM Draft.carryOut Draft.empty =
      some (s.draft [] ["downloader"]) := rfl

/-- A pair goes into the table that was opened last. -/
theorem carryOut_assign (s : Settings) (tags : List Toml.Entries) {entries : Toml.Entries} {key : String}
    (item : Item) (hnone : entries.get? key = none) :
    (s.draft (tags ++ [entries]) ["downloader", "tags"]).carryOut (.assign [key] item) =
      some (s.draft (tags ++ [entries.insert key item]) ["downloader", "tags"]) := by
  simp [draft, Draft.carryOut, OpenTable.update, OpenTable.assign, OpenTable.add, OpenTable.set, OpenTable.item,
    OpenTable.Passable, Table.get?, Table.insert, hnone]

/-- The statements of a tag open its table after those of the tags before it. -/
theorem carryOut_tag (s : Settings) (tags : List Toml.Entries) (opened : List String) (t : TagSettings) :
    t.statements.foldlM Draft.carryOut (s.draft tags opened) =
      some (s.draft (tags ++ [t.entries]) ["downloader", "tags"]) := by
  have hopened : (s.draft tags opened).carryOut (.nextHeader ["downloader", "tags"]) =
      some (s.draft (tags ++ [[]]) ["downloader", "tags"]) := by
    cases tags <;>
      simp [draft, Draft.carryOut, Draft.openWith, OpenTable.update, OpenTable.openNext, OpenTable.set,
        OpenTable.item, OpenTable.Passable, Table.get?, Table.insert]
  rw [TagSettings.statements]
  simp only [List.foldlM_cons, List.foldlM_nil, Option.bind_eq_bind, hopened, Option.bind_some]
  rw [carryOut_assign s tags _ rfl, Option.bind_some, carryOut_assign s tags _ rfl, Option.bind_some,
    carryOut_assign s tags _ rfl]
  rfl

theorem carryOut_tags (s : Settings) (settings : List TagSettings) (tags : List Toml.Entries) (opened : List String) :
    ∃ last, (settings.flatMap TagSettings.statements).foldlM Draft.carryOut (s.draft tags opened) =
      some (s.draft (tags ++ settings.map TagSettings.entries) last) := by
  induction settings generalizing tags opened with
  | nil => exact ⟨opened, by simp [pure]⟩
  | cons t settings ih =>
    obtain ⟨last, hlast⟩ := ih (tags ++ [t.entries]) ["downloader", "tags"]
    refine ⟨last, ?_⟩
    rw [List.flatMap_cons, List.foldlM_append, carryOut_tag, Option.bind_eq_bind, Option.bind_some, hlast]
    simp

/-- Settings as the entries of a document. -/
def entries (s : Settings) : Toml.Entries :=
  [("storage", .table .header [("block_path", .string s.blockPath)]),
    ("downloader", .table .header s.downloader.entries)]

/-- Carried out, the statements make up these entries. -/
theorem carryOut_statements (s : Settings) :
    ∃ last, s.statements.foldlM Draft.carryOut Draft.empty = some ⟨⟨.header, s.entries⟩, last⟩ := by
  rw [statements, List.foldlM_append, draft_begun, Option.bind_eq_bind, Option.bind_some]
  by_cases hnone : s.downloader.tags = []
  · refine ⟨["downloader"], ?_⟩
    rw [if_pos hnone, entries, DownloaderSettings.entries, if_pos hnone]
    rfl
  · obtain ⟨last, hlast⟩ := s.carryOut_tags s.downloader.tags [] ["downloader"]
    refine ⟨last, ?_⟩
    rw [if_neg hnone, hlast, entries, DownloaderSettings.entries, if_neg hnone, draft, if_neg (by simpa using hnone)]
    rfl

/-! ## The document -/

theorem shown_entries (s : Settings) : s.ShownBy s.entries :=
  ⟨⟨_, _, rfl, rfl⟩, ⟨_, _, rfl, s.downloader.shown_entries⟩⟩

/-- The lines of settings are a document of them. -/
theorem written_document {s : Settings} (h : s.AllStorable) : s.WrittenIn s.document := by
  obtain ⟨last, hlast⟩ := s.carryOut_statements
  have hmark : s.document.toList.head? ≠ some byteOrderMark := by
    have hlines : s.lines = "[storage]" :: s.lines.tail := rfl
    have hne : some '[' ≠ some byteOrderMark := by decide
    rw [document, hlines, linesText_cons]
    exact hne
  refine ⟨s.entries, ?_, s.shown_entries⟩
  rw [document, (lines_say h).parse hmark, hlast]
  rfl

end Settings

end BlockDag
