/-
Writing the default settings where there is no file for them. The file holds a document of the defaults, which
reads back as the defaults, so that loading gives afterwards what it gave before, and the file is written once.
-/
import BlockDag.Proofs.Calls
import BlockDag.Proofs.Documents

namespace BlockDag

namespace FileTree

variable {t t' : FileTree} {p : Path} {place : Place}

/-- Text that was written is what is read. -/
theorem readText_of_create (h : t.create p = .ok (place, t')) (text : String) :
    (t'.fill place (Bytes.ofString text)).Exists p ∧ (t'.fill place (Bytes.ofString text)).readText p = .ok text := by
  have hlook := look_of_create h (Bytes.ofString text)
  refine ⟨exists_of_look hlook, ?_⟩
  rw [readText, bytes, hlook]
  simp only [bind, Except.bind, pure, Except.pure, Bytes.toString?_ofString]

end FileTree

/-- Between the parts of a path comes one slash, where neither has one there. -/
theorem PathText.join_eq {base rest : String} (hb : base ≠ "") (he : ¬ "/".toList <:+ base.toList)
    (hr : ¬ "/".toList <+: rest.toList) : join base rest = base ++ "/" ++ rest := by
  have hend : base.endsWith "/" = false := by
    rwa [← String.endsWith_toSlice, String.Slice.endsWith_string_eq_false_iff, String.copy_toSlice]
  have hstart : rest.startsWith "/" = false := String.startsWith_string_eq_false_iff.2 hr
  simp [join, hb, hstart, hend]

namespace Settings

variable {ε : Type} {print : Settings → Except ε String} {r : Refusals} {env : Environment} {tree tree' : FileTree}

/-- What `print` writes for the settings is a document of them. -/
def Printed (print : Settings → Except ε String) (s : Settings) : Prop := ∀ text, print s = .ok text → s.WrittenIn text

theorem storable_defaults (env : Environment) : env.defaults.AllStorable where
  maxBlockSize := show Storable 262144 by decide
  tags t ht := by
    obtain rfl := List.mem_singleton.1 ht
    exact ⟨show Storable (64 * 1024 * 1024) by decide, show Storable 300 by decide⟩

/-- The document of the defaults is one. -/
theorem printed_document (env : Environment) :
    Printed (fun s => (.ok s.document : Except Empty String)) env.defaults := by
  rintro _ ⟨⟩
  exact written_document (storable_defaults env)

/-- Where the defaults were written, the text that is printed for them is in the file. -/
theorem writeDefaultBy_eq_ok (hn : ¬ tree.Exists (PathText.toPath env.filePath))
    (h : writeDefaultBy print r env tree = (.ok (), tree')) : ∃ text, print env.defaults = .ok text ∧
      tree'.Exists (PathText.toPath env.filePath) ∧ tree'.readText (PathText.toPath env.filePath) = .ok text := by
  rw [writeDefaultBy, if_neg hn] at h
  split at h
  · cases h
  next made _ =>
  split at h
  · cases h
  next text hprint =>
  split at h
  · cases h
  next place created hcreate =>
  split at h
  · cases h
  next hwrite =>
  cases h
  rw [Refusals.written, hwrite]
  exact ⟨text, hprint, FileTree.readText_of_create (unlessRefused_eq_ok.1 hcreate).2 text⟩

/-- Writing the default settings where there is no file changes nothing of what is loaded, whatever the variables
are, and however the settings are put into a document: the file is there then and holds that document, and it is
not written again. -/
theorem load_writeDefaultBy (hp : Printed print env.defaults) (hn : ¬ tree.Exists (PathText.toPath env.filePath))
    (h : writeDefaultBy print r env tree = (.ok (), tree')) :
    (∃ text, print env.defaults = .ok text ∧ tree'.Exists (PathText.toPath env.filePath) ∧
      tree'.readText (PathText.toPath env.filePath) = .ok text) ∧
    load env tree' = load env tree ∧ ∀ r, writeDefaultBy print r env tree' = (.ok (), tree') := by
  obtain ⟨text, hprint, he, ht⟩ := writeDefaultBy_eq_ok hn h
  have hread : read env tree' = read env tree := by
    simp only [read, if_pos he, if_neg hn, ht, parse_of_written _ (hp text hprint)]
  refine ⟨⟨text, hprint, he, ht⟩, ?_, fun r => ?_⟩
  · rw [load, load, hread]
  · rw [writeDefaultBy, if_pos he]

/-- Variables with a path in which there is all that a text cannot hold as it is. -/
def awkwardEnvironment : Environment where
  configFile := some "c.toml"
  blockPath := none
  maxBlockSize := none
  configHome := none
  dataHome := some "/a\"b'''c\\\n\x01\x7f"
  home := none

theorem load_writeDefaultBy_awkward : ∃ tree',
    writeDefaultBy (fun s => (.ok s.document : Except Empty String)) .none awkwardEnvironment .empty = (.ok (), tree') ∧
      tree'.readText ["c.toml"] = .ok awkwardEnvironment.defaults.document ∧
      load awkwardEnvironment tree' = .ok ⟨"/a\"b'''c\\\n\x01\x7f/canopy/blocks", .default⟩ ∧
      writeDefaultBy (fun s => (.ok s.document : Except Empty String)) .none awkwardEnvironment tree' =
        (.ok (), tree') := by
  have hp : PathText.toPath awkwardEnvironment.filePath = ["c.toml"] := by decide
  have hn : ¬ FileTree.empty.Exists (PathText.toPath awkwardEnvironment.filePath) := by decide
  obtain ⟨tree', hw⟩ : ∃ tree', writeDefaultBy (fun s => (.ok s.document : Except Empty String)) .none
      awkwardEnvironment .empty = (.ok (), tree') := by
    have hmade : FileTree.empty.makeDirsWithin .none [] = (.ok (), .empty) := by
      rw [FileTree.makeDirsWithin]
      rfl
    have hparent : (parent? ["c.toml"]).getD [] = [] := by decide
    rw [writeDefaultBy, if_neg hn]
    simp only [hp, hparent, hmade]
    exact ⟨_, rfl⟩
  obtain ⟨⟨text, hprint, -, ht⟩, hload, hagain⟩ := load_writeDefaultBy (printed_document _) hn hw
  obtain rfl := Except.ok.inj hprint
  refine ⟨tree', hw, hp ▸ ht, ?_, hagain .none⟩
  have hdefaults : awkwardEnvironment.defaults = ⟨"/a\"b'''c\\\n\x01\x7f/canopy/blocks", .default⟩ := by
    have hdata : awkwardEnvironment.dataDir = "/a\"b'''c\\\n\x01\x7f/canopy" :=
      PathText.join_eq (by decide) (by decide) (by decide)
    rw [Environment.defaults, hdata, PathText.join_eq (by decide) (by decide) (by decide)]
    rfl
  have hvalid : DownloaderSettings.default.validate = .ok () := rfl
  rw [hload, load, read, if_neg hn, hdefaults]
  change (DownloaderSettings.default.validate >>= fun _ => .ok _) = _
  rw [hvalid]
  rfl

end Settings

end BlockDag
