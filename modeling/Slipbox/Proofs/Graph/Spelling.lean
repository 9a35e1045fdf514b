import Slipbox.Proofs.Graph.Extension
import Slipbox.Proofs.Graph.Resolution

/-! Targets that spell a note's path or its file name. They lead to a note unless the spelled text
falls apart, and then there are notes among which they lead nowhere. -/

namespace Slipbox.Graph

/-- A target leads to some note just when it names one by some rule. -/
theorem Resolver.position?_isSome {notes : List (String × String)} {target : String} :
    ((ofNotes notes).position? target).isSome = true ↔
      Text.trim target.toList ≠ [] ∧
        ∃ r : Rule, ∃ note ∈ notes, r.Names (Text.trim target.toList) note := by
  rw [position?_eq_search?, search?]
  cases Text.trim target.toList with
  | nil => simp
  | cons c cs =>
      have hrule (r : Rule) : (r.search? notes (c :: cs)).isSome = true ↔
          ∃ note ∈ notes, r.Names (c :: cs) note := by
        rw [← Option.isNone_eq_false_iff, ← Bool.not_eq_true, Option.isNone_iff_eq_none,
          Rule.search?_eq_none]
        push Not
        rfl
      simp only [List.findSome?_isSome_iff, hrule, Rule.mem_all, true_and, ne_eq, reduceCtorEq,
        not_false_eq_true]

/-- A target keeps its slashes when it becomes the key of a search by name. -/
theorem slash_mem_key {t : List Char} : '/' ∈ stripExtension (Text.lower t) ↔ '/' ∈ t := by
  rw [slash_mem_stripExtension, Text.slash_mem_lower]

namespace Rule

variable {t : List Char} (note : String × String)

theorem names_of_slash (h : '/' ∈ t) : Rule.name.Names t note ↔
    Text.lower (stripExtension note.1.toList) = stripExtension (Text.lower t) ∨
      '/' :: (stripExtension (Text.lower t)).dropWhile (· == '/') <:+
        Text.lower (stripExtension note.1.toList) := by
  simp only [Names, if_pos (slash_mem_key.mpr h)]

theorem names_of_no_slash (h : '/' ∉ t) : Rule.name.Names t note ↔
    Text.lower (stripExtension (fileName note.1.toList)) = stripExtension (Text.lower t) := by
  simp only [Names, if_neg (slash_mem_key.not.mpr h)]

/-- A target with a slash has the file name of every note that it names by name. -/
theorem fileName_of_names (h : '/' ∈ t) (hnames : Rule.name.Names t note) :
    fileName (stripExtension (Text.lower t)) =
      fileName (Text.lower (stripExtension note.1.toList)) := by
  rcases (names_of_slash note h).mp hnames with hsame | ⟨front, hsuffix⟩
  · rw [hsame]
  · -- the slashes that the key begins with do not belong to its file name
    rw [← hsuffix, fileName_slash]
    conv_lhs =>
      rw [← List.takeWhile_append_dropWhile (p := (· == '/')) (l := stripExtension (Text.lower t))]
    rcases List.eq_nil_or_concat ((stripExtension (Text.lower t)).takeWhile (· == '/')) with
      hnone | ⟨slashes, c, hslashes⟩
    · rw [hnone, List.nil_append]
    · have hlast : c ∈ (stripExtension (Text.lower t)).takeWhile (· == '/') := by
        rw [hslashes]
        simp
      obtain rfl : c = '/' := by simpa using List.mem_takeWhile_imp hlast
      rw [hslashes, List.concat_eq_append, List.append_assoc, List.singleton_append, fileName_slash]

/-- A file name leads to its note by name unless it falls apart. -/
theorem names_fileName : Rule.name.Names (fileName note.1.toList) note ↔
    ¬ FoldsApart (fileName note.1.toList) := by
  rw [names_of_no_slash note (slash_notMem_fileName _), eq_comm, stripExtension_lower_iff]

/-- A path in any letter case leads to its note by name unless the path falls apart. -/
theorem names_of_lower_eq (h : Text.lower t = Text.lower note.1.toList) :
    Rule.name.Names t note ↔ ¬ FoldsApart note.1.toList := by
  have hslash : '/' ∈ t ↔ '/' ∈ note.1.toList := by
    rw [← Text.slash_mem_lower, h, Text.slash_mem_lower]
  by_cases ht : '/' ∈ t
  · constructor
    · intro hnames hapart
      have hname := fileName_of_names note ht hnames
      rw [h] at hname
      exact hapart.fileName_ne hname
    · intro hwhole
      rw [names_of_slash note ht, h, stripExtension_lower_iff.mpr hwhole]
      exact .inl rfl
  · rw [names_of_no_slash note ht, fileName_eq_self (hslash.not.mp ht), h, eq_comm,
      stripExtension_lower_iff]

end Rule

/-- A text that falls apart can be spelled in another letter case. -/
theorem FoldsApart.exists_other {text : List Char} (h : FoldsApart text) :
    ∃ other, other ≠ text ∧ Text.lower other = Text.lower text := by
  let swap (c : Char) : Char := if c = 'm' then 'M' else if c = 'M' then 'm' else c
  let isM (c : Char) : Bool := c == 'm' || c == 'M'
  have hlower (c : Char) : (swap c).toLower = c.toLower := by
    by_cases hm : c = 'm'
    · subst hm
      decide
    · by_cases hM : c = 'M'
      · subst hM
        decide
      · simp only [swap, if_neg hm, if_neg hM]
  have hswap {c : Char} (hc : isM c = true) : swap c ≠ c := by
    rcases (Bool.or_eq_true _ _).mp hc with hc | hc <;> rw [eq_of_beq hc] <;> decide
  -- every extension has an `m`
  obtain ⟨c, hc, hm⟩ : ∃ c ∈ text, isM c = true := by
    obtain ⟨base, ext, rfl, _, hext, _⟩ := h
    have hall : ∀ e ∈ documentExtensions.map String.toList, 'm' ∈ e := by decide
    obtain ⟨c, hc, before, behind, hmem⟩ := Text.exists_mem_smallAt (hall _ hext)
    refine ⟨c, List.mem_append_right base hc, ?_⟩
    rcases Text.of_mem_smallAt hmem with hsmall | ⟨_, hbeyond, _⟩
    · have hsame : isM c.toLower = isM c := Text.apply_toLower (by decide +kernel) c
      rw [← hsame, ← hsmall]
      decide
    · exact absurd hbeyond (by decide)
  refine ⟨text.map swap, fun hsame => ?_, ?_⟩
  · rw [← List.map_id text, List.map_map] at hsame
    exact hswap hm (List.map_inj_left.mp hsame c hc)
  · have hascii : (text.map swap).map Char.toLower = text.map Char.toLower := by
      rw [List.map_map]
      exact List.map_congr_left fun c _ => hlower c
    calc Text.lower (text.map swap)
        = Text.lower ((text.map swap).map Char.toLower) := (Text.lowerAfter_toLower [] _).symm
      _ = Text.lower (text.map Char.toLower) := congrArg Text.lower hascii
      _ = Text.lower text := Text.lowerAfter_toLower [] text

namespace Resolver

variable {notes : List (String × String)} {note : String × String} {target : String}

theorem isSome_of_names (hnote : note ∈ notes)
    (htarget : target.toList ≠ [] ∧ Text.trim target.toList = target.toList) {r : Rule}
    (hnames : r.Names target.toList note) : ((ofNotes notes).position? target).isSome = true := by
  rw [position?_isSome, htarget.2]
  exact ⟨htarget.1, r, note, hnote, hnames⟩

/-- To a note that has no title and no other note beside it lead its path and what names it by
name. -/
theorem isSome_untitled (path : String)
    (htarget : target.toList ≠ [] ∧ Text.trim target.toList = target.toList) :
    ((ofNotes [(path, "")]).position? target).isSome = true ↔
      target.toList = path.toList ∨ Rule.name.Names target.toList (path, "") := by
  constructor
  · intro hsome
    obtain ⟨_, r, note, hnote, hnames⟩ := position?_isSome.mp hsome
    rw [List.mem_singleton] at hnote
    rw [htarget.2] at hnames
    subst hnote
    cases r with
    | path => exact .inl hnames.symm
    | title => exact absurd (Text.lower_eq_nil.mp hnames.symm) htarget.1
    | name => exact .inr hnames
  · rintro (hpath | hname)
    · exact isSome_of_names (r := .path) (List.mem_singleton_self _) htarget hpath.symm
    · exact isSome_of_names (List.mem_singleton_self _) htarget hname

end Resolver

/-- The target is as little to be trimmed as any text with the same lower case. -/
theorem target_of_lower_eq {target path : List Char} (h : Text.lower target = Text.lower path)
    (hpath : path ≠ [] ∧ Text.trim path = path) : target ≠ [] ∧ Text.trim target = target := by
  constructor
  · intro hnil
    rw [← Text.lower_eq_nil, h, Text.lower_eq_nil] at hnil
    exact hpath.1 hnil
  · rw [← Text.trim_lower, h, Text.trim_lower]
    exact hpath.2

theorem fileName_resolves_iff {path : String} (hname : fileName path.toList ≠ [] ∧
      Text.trim (fileName path.toList) = fileName path.toList) :
    (∀ notes : List (String × String), path ∈ notes.map Prod.fst →
        ((Resolver.ofNotes notes).position? (String.ofList (fileName path.toList))).isSome = true) ↔
      ¬ FoldsApart (fileName path.toList) ∨ fileName path.toList = path.toList := by
  rw [← String.toList_ofList (l := fileName path.toList)] at hname
  constructor
  · intro hall
    have halone := (Resolver.isSome_untitled path hname).mp (hall [(path, "")] (by simp))
    rw [String.toList_ofList] at halone
    exact (halone.imp_right (Rule.names_fileName (path, "")).mp).symm
  · intro hwhole notes hnotes
    obtain ⟨note, hnote, rfl⟩ := List.mem_map.mp hnotes
    rcases hwhole with hwhole | hsame
    · refine Resolver.isSome_of_names (r := .name) hnote hname ?_
      rw [String.toList_ofList]
      exact (Rule.names_fileName note).mpr hwhole
    · refine Resolver.isSome_of_names (r := .path) hnote hname ?_
      rw [String.toList_ofList]
      exact hsame.symm

theorem spelled_resolves_iff {path : String}
    (hpath : path.toList ≠ [] ∧ Text.trim path.toList = path.toList) :
    (∀ notes : List (String × String), path ∈ notes.map Prod.fst →
        ∀ target, Text.lowercase target = Text.lowercase path →
          ((Resolver.ofNotes notes).position? target).isSome = true) ↔
      ¬ FoldsApart path.toList := by
  constructor
  · intro hall hapart
    obtain ⟨other, hne, hother⟩ := hapart.exists_other
    rw [← String.toList_ofList (l := other)] at hne hother
    have hsome := hall [(path, "")] (by simp) (String.ofList other) (congrArg String.ofList hother)
    rcases (Resolver.isSome_untitled path (target_of_lower_eq hother hpath)).mp hsome with
      hsame | hnames
    · exact hne hsame
    · exact (Rule.names_of_lower_eq (path, "") hother).mp hnames hapart
  · intro hwhole notes hnotes target hlower
    obtain ⟨note, hnote, rfl⟩ := List.mem_map.mp hnotes
    have hsame : Text.lower target.toList = Text.lower note.1.toList := String.ofList_inj.mp hlower
    exact Resolver.isSome_of_names hnote (target_of_lower_eq hsame hpath)
      ((Rule.names_of_lower_eq note hsame).mpr hwhole)

/-- In all lists of notes that have a note of this path, its file name leads to a note just when the
name does not fall apart or is the whole path, and all other spellings of the path lead to notes
just when the path does not fall apart. -/
theorem spelled_path_resolves_iff (path : String)
    (hpath : path.toList ≠ [] ∧ Text.trim path.toList = path.toList)
    (hname : fileName path.toList ≠ [] ∧
      Text.trim (fileName path.toList) = fileName path.toList) :
    ((∀ notes : List (String × String), path ∈ notes.map Prod.fst →
        ((Resolver.ofNotes notes).position? (String.ofList (fileName path.toList))).isSome = true) ↔
      ¬ FoldsApart (fileName path.toList) ∨ fileName path.toList = path.toList) ∧
    ((∀ notes : List (String × String), path ∈ notes.map Prod.fst →
        ∀ target, Text.lowercase target = Text.lowercase path →
          ((Resolver.ofNotes notes).position? target).isSome = true) ↔
      ¬ FoldsApart path.toList) :=
  ⟨fileName_resolves_iff hname, spelled_resolves_iff hpath⟩

/-- A note in a folder is found by its file name and by its path in other letters. -/
theorem spelled_path_resolves_docker :
    let path := "tech/Docker.md"
    let r := Resolver.ofNotes [(path, "Containers")]
    (path.toList ≠ [] ∧ Text.trim path.toList = path.toList) ∧
      (fileName path.toList ≠ [] ∧ Text.trim (fileName path.toList) = fileName path.toList) ∧
      (r.position? (String.ofList (fileName path.toList))).isSome = true ∧
      Text.lowercase "TECH/docker.MD" = Text.lowercase path ∧
      (r.position? "TECH/docker.MD").isSome = true := by
  intro path r
  have hpath : path.toList ≠ [] ∧ Text.trim path.toList = path.toList := by decide +kernel
  have hname : fileName path.toList ≠ [] ∧
      Text.trim (fileName path.toList) = fileName path.toList := by decide +kernel
  have hlower : Text.lowercase "TECH/docker.MD" = Text.lowercase path := by decide +kernel
  obtain ⟨hfile, hspelled⟩ := spelled_path_resolves_iff path hpath hname
  have hnote : path ∈ [(path, "Containers")].map Prod.fst := List.mem_singleton_self path
  refine ⟨hpath, hname, hfile.mpr (.inl ?_) _ hnote, hlower, hspelled.mpr ?_ _ hnote _ hlower⟩ <;>
    exact not_foldsApart_of_plain (by decide +kernel) (by decide +kernel)

/-- With a sigma before the extension, neither the file name nor the path in other letters leads to
the note. -/
theorem spelled_path_lost_with_sigma :
    let path := "dir/ΑΣ.md"
    let r := Resolver.ofNotes [(path, "One")]
    (path.toList ≠ [] ∧ Text.trim path.toList = path.toList) ∧
      (fileName path.toList = "ΑΣ.md".toList ∧
        Text.trim (fileName path.toList) = fileName path.toList) ∧
      r.position? "ΑΣ.md" = none ∧
      Text.lowercase "DIR/ΑΣ.md" = Text.lowercase path ∧ r.position? "DIR/ΑΣ.md" = none := by
  intro path r
  have hmissing : r.position? "ΑΣ.md" = none ∧ r.position? "DIR/ΑΣ.md" = none := by
    simp only [r, Resolver.position?_eq_search?]
    decide +kernel
  exact ⟨by decide +kernel, by decide +kernel, hmissing.1, by decide +kernel, hmissing.2⟩

end Slipbox.Graph
