import Slipbox.Field
import Slipbox.Proofs.Text.Lowercase

/-! What the fields of a query may be called: by their names and, some of them, by a second name, in
any ASCII letter case. No text is a name of two fields. -/

namespace Slipbox.Field

/-- The name of a field, and a second one that it may have. -/
def spellings : Field → List String
  | .path => ["path", "file.path"]
  | .title => ["title"]
  | .type => ["type"]
  | .created => ["created", "file.ctime"]
  | .modified => ["modified", "file.mtime"]
  | .source => ["source"]
  | .confidence => ["confidence"]
  | .verified => ["verified"]
  | .tags => ["tags", "file.tags"]
  | .content => ["content"]

/-- The text is one of the field's names up to ASCII letter case. -/
def IsNamed (f : Field) (text : String) : Prop :=
  ∃ s ∈ f.spellings, Text.asciiLower text = Text.asciiLower s

instance (f : Field) (text : String) : Decidable (f.IsNamed text) :=
  inferInstanceAs (Decidable (∃ s ∈ f.spellings, _))

theorem asciiLower_spelling {f : Field} {s : String} (hs : s ∈ f.spellings) :
    Text.asciiLower s = s.toList := by
  have hsmall : ∀ s ∈ f.spellings, Text.asciiLower s = s.toList := by
    cases f <;> decide
  exact hsmall s hs

theorem spelling_of_mem_names {entry : String × Field} (h : entry ∈ names) :
    entry.1 ∈ entry.2.spellings := by
  have hall : ∀ entry ∈ names, entry.1 ∈ entry.2.spellings := by decide
  exact hall entry h

/-- The search finds a spelling under its own field. -/
theorem find?_spelling {f : Field} {s : String} (hs : s ∈ f.spellings) :
    (names.find? fun entry => entry.1 == s).map (·.2) = some f := by
  have hfound : ∀ s ∈ f.spellings, (names.find? fun entry => entry.1 == s).map (·.2) = some f := by
    cases f <;> decide
  exact hfound s hs

theorem ofName?_eq_some {text : String} {f : Field} : ofName? text = some f ↔ f.IsNamed text := by
  constructor
  · intro h
    obtain ⟨entry, hfound, rfl⟩ := Option.map_eq_some_iff.mp h
    have hmem := spelling_of_mem_names (List.mem_of_find?_eq_some hfound)
    have hsmall := List.find?_some hfound
    rw [beq_iff_eq] at hsmall
    refine ⟨entry.1, hmem, ?_⟩
    rw [asciiLower_spelling hmem, hsmall, String.toList_ofList]
    rfl
  · rintro ⟨s, hs, htext⟩
    have hsmall : String.ofList (text.toList.map Char.toLower) = s := by
      rw [asciiLower_spelling hs] at htext
      exact (congrArg String.ofList htext).trans String.ofList_toList
    rw [ofName?, hsmall]
    exact find?_spelling hs

theorem ofName?_eq_none {text : String} : ofName? text = none ↔ ∀ f : Field, ¬ f.IsNamed text := by
  rw [Option.eq_none_iff_forall_ne_some]
  exact forall_congr' fun f => not_congr ofName?_eq_some

/-- A text names one field at most. -/
theorem IsNamed.unique {f g : Field} {text : String} (hf : f.IsNamed text) (hg : g.IsNamed text) :
    f = g :=
  Option.some.inj ((ofName?_eq_some.mpr hf).symm.trans (ofName?_eq_some.mpr hg))

end Slipbox.Field
