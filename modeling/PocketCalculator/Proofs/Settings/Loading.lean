import PocketCalculator.Settings
import PocketCalculator.Proofs.Json.DistinctKeys
import PocketCalculator.Proofs.Json.RoundTrip

/-! # Settings that are saved and loaded

What is saved is what is loaded (`content_fileText`), and a single setting is looked up in the same
settings that are loaded as a whole, although the one is asked of the file first and of the
defaults after it, and the other is laid over the defaults (`loadOne_eq_lookup`). -/

namespace PocketCalculator

namespace FileText

/-- A file that can be read holds an object if it holds any JSON. -/
def HoldsObject (file : FileText) : Prop :=
  ∀ v, file.content = .ok (some v) → ∃ members, v = .object members

/-- A saved value is the content of its file. -/
theorem content_fileText {v : Json} (hv : v.isRegular = true) (hw : v.isWritable = true) :
    content (some v.fileText) = .ok (some v) := by
  have h : Json.read v.fileText = .ok v := Json.read_written (some 4) hv hw
  rw [content, h]

theorem nodup_keys_of_content {file : FileText} {members : Json.Members}
    (h : file.content = .ok (some (.object members))) : (Json.keys members).Nodup := by
  unfold content at h
  split at h
  · cases h
  · split at h <;> cases h
    rename_i hread
    exact Json.nodup_keys_of_read hread

end FileText

namespace Settings

open Json (keys overlay)

variable {file : FileText} {members : Settings}

theorem loadAll_of_object (h : file.content = .ok (some (.object members))) :
    loadAll file = .ok (overlay defaults members) := by
  rw [loadAll, h]
  rfl

theorem loadOne_of_object (h : file.content = .ok (some (.object members))) (key : String) :
    loadOne file key = .ok (((members.lookup key).or (defaults.lookup key)).getD (.int 0)) := by
  rw [loadOne, ofFile, h, Option.or_eq_orElse]
  rfl

/-- One setting is what all settings hold under its key, or zero. -/
theorem loadOne_eq_lookup (hfile : file.HoldsObject) (key : String) :
    loadOne file key = (loadAll file).map fun all => (all.lookup key).getD (.int 0) := by
  cases hcontent : file.content with
  | error fault =>
      rw [loadOne, ofFile, loadAll, hcontent]
      rfl
  | ok found =>
      cases found with
      | none =>
          rw [loadOne, ofFile, loadAll, hcontent]
          rfl
      | some v =>
          obtain ⟨members, rfl⟩ := hfile v hcontent
          rw [loadOne_of_object hcontent, loadAll_of_object hcontent, Except.map,
            Json.lookup_overlay (FileText.nodup_keys_of_content hcontent)]

theorem isWritable_of_save {writable : Bool} {v answer : Json} {text : Text}
    (h : save writable v = .ok (answer, some text)) :
    v.isWritable = true ∧ answer = v ∧ text = v.fileText := by
  unfold save at h
  split at h
  · cases h
  · split at h
    · rename_i hw
      cases h
      exact ⟨hw, rfl, rfl⟩
    · cases h

/-- An object can be saved if its whole numbers are not too long to be written.  After it is saved,
all settings are the object laid over the defaults: the keys of the defaults, then the new ones in
the order of the object, with the values of the object before those of the defaults; and each key
of the object is loaded as what it holds.  Whatever a file holds, as long as it is an object, no
JSON or nothing, one setting is what all settings hold under its key, or zero; a file with a number
that is too long gives neither. -/
theorem save_load :
    (∀ d : Settings, (Json.object d).isRegular = true →
      ((Json.object d).isWritable = true → ∃ text, save true (.object d) = .ok (.object d, some text)) ∧
      ∀ (writable : Bool) (text : Text),
        save writable (.object d) = .ok (.object d, some text) →
          load (some text) "all" = .ok (.object (overlay defaults d)) ∧
          keys (overlay defaults d) = keys defaults ++ (keys d).filter (· ∉ keys defaults) ∧
          (∀ key, (overlay defaults d).lookup key = (d.lookup key).or (defaults.lookup key)) ∧
          ∀ key v, key ≠ "all" → d.lookup key = some v → load (some text) key = .ok v) ∧
    ∀ (file : FileText) (key : String), file.HoldsObject → key ≠ "all" →
      load file key = (loadAll file).map (fun all => (all.lookup key).getD (.int 0)) ∧
      load file "all" = (loadAll file).map .object := by
  refine ⟨fun d hd => ⟨fun hw => ⟨_, by rw [save, hw]; rfl⟩, ?_⟩, ?_⟩
  · intro writable text hsave
    obtain ⟨hw, -, rfl⟩ := isWritable_of_save hsave
    have hcontent : FileText.content (some (Json.object d).fileText) = .ok (some (.object d)) :=
      FileText.content_fileText hd hw
    have hdistinct : (keys d).Nodup := FileText.nodup_keys_of_content hcontent
    refine ⟨?_, Json.keys_overlay hdistinct, Json.lookup_overlay hdistinct, ?_⟩
    · rw [load, if_pos rfl, loadAll_of_object hcontent]
      rfl
    · intro key v hkey hv
      rw [load, if_neg hkey, loadOne_of_object hcontent, hv]
      rfl
  · intro file key hfile hkey
    exact ⟨by rw [load, if_neg hkey, loadOne_eq_lookup hfile], by rw [load, if_pos rfl]⟩

/-- Settings with a nested value under a new key. -/
def nestedSettings : Settings :=
  [("theme", .object [("name", .text "Café\n"), ("sizes", .list [.int (-1), .real 0.5, .null])]),
   ("decimal_places", .int 9)]

theorem isRegular_nestedSettings : (Json.object nestedSettings).isRegular = true := by
  have hreal : (0.5 : Float).isFinite = true := by decide
  simp [nestedSettings, Json.isRegular, Json.areRegular, Json.haveRegular, keys, hreal]

theorem isWritable_nestedSettings : (Json.object nestedSettings).isWritable = true := by
  have hsmall : Json.isWritableInt (-1) = true ∧ Json.isWritableInt 9 = true := by decide
  simp [nestedSettings, Json.isWritable, Json.areWritable, Json.haveWritable, hsmall]

theorem save_load_nested : (∃ text,
    save true (.object nestedSettings) = .ok (.object nestedSettings, some text) ∧
      load (some text) "all" = .ok (.object (overlay defaults nestedSettings)) ∧
      keys (overlay defaults nestedSettings) =
        ["display_format", "decimal_places", "significant_digits", "fraction_max_denominator",
          "mixed_fractions", "log_level", "theme"] ∧
      load (some text) "decimal_places" = .ok (.int 9)) ∧
    FileText.HoldsObject (some ['[']) ∧ "decimal_places" ≠ "all" ∧
      load (some ['[']) "decimal_places" =
        (loadAll (some ['['])).map fun all => (all.lookup "decimal_places").getD (.int 0) := by
  have hbroken : FileText.HoldsObject (some ['[']) := by
    intro v hv
    have hread : Json.read ['['] = .error .malformed := by
      rw [Json.read, Json.tokens?_punctuation rfl, Json.tokens?]
      rfl
    rw [FileText.content, hread] at hv
    cases hv
  obtain ⟨hsaves, hloads⟩ := save_load.1 nestedSettings isRegular_nestedSettings
  obtain ⟨text, hsave⟩ := hsaves isWritable_nestedSettings
  obtain ⟨hall, hkeys, -, hkey⟩ := hloads true text hsave
  exact ⟨⟨text, hsave, hall, hkeys.trans (by decide), hkey _ _ (by decide) rfl⟩, hbroken,
    by decide, (save_load.2 _ _ hbroken (by decide)).1⟩

end Settings
end PocketCalculator
