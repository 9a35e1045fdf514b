import Slipbox.Proofs.Graph.Spelling

/-! Targets with a slash in front. Such a target leads only to notes whose path goes on before what
the target spells; a note that the target without the slash spells as a whole is lost. -/

namespace Slipbox

theorem Text.trim_slash (cs : List Char) : trim ('/' :: cs) = '/' :: trimEnd cs := by
  have hslash : isBlank '/' = false := by decide
  have hkept (xs : List Char) :
      (xs ++ ['/']).dropWhile isBlank = xs.dropWhile isBlank ++ ['/'] := by
    rw [List.dropWhile_append]
    cases xs.dropWhile isBlank <;> rfl
  rw [trim, trimStart, List.dropWhile_cons, hslash, if_neg Bool.false_ne_true, trimEnd, trimEnd,
    List.reverse_cons, hkept, List.reverse_append]
  rfl

namespace Graph

/-- What the target spells is the whole path of the note. -/
def NamesWhole (t : List Char) (note : String × String) : Prop :=
  Text.lower (stripExtension note.1.toList) = stripExtension (Text.lower t)

instance (t : List Char) (note : String × String) : Decidable (NamesWhole t note) :=
  inferInstanceAs (Decidable (_ = _))

/-- What the target spells stands behind a slash of the path. -/
def NamesBelow (t : List Char) (note : String × String) : Prop :=
  '/' :: stripExtension (Text.lower t) <:+ Text.lower (stripExtension note.1.toList)

theorem dropWhile_slash {cs : List Char} (h : cs.head? ≠ some '/') :
    cs.dropWhile (· == '/') = cs := by
  cases cs with
  | nil => rfl
  | cons c cs =>
      rw [List.dropWhile_cons, if_neg]
      intro hc
      exact h (congrArg some (eq_of_beq hc))

/-- In the path of a note in a folder, a key without slashes stands behind a slash just when it is
that of the file name. -/
theorem names_below_of_folder {key : List Char} (hkey : key ≠ []) (hslash : '/' ∉ key)
    (hext : ¬ IsExtension key) (folder name : List Char) (hname : '/' ∉ name) :
    '/' :: key <:+ Text.lower (stripExtension (folder ++ '/' :: name)) ↔
      Text.lower (stripExtension name) = key := by
  by_cases hbare : IsExtension name
  · -- nothing but the folder is left of the path, and all of the file name
    have hfolder : stripExtension (folder ++ '/' :: name) = folder ++ '/' :: [] := by
      rw [← List.singleton_append, ← List.append_assoc]
      exact stripExtension_append (by simp) hbare
    rw [hfolder, Text.lower_slash, stripExtension_of_isExtension hbare]
    constructor
    · rintro ⟨front, hsuffix⟩
      have hsame := congrArg fileName hsuffix
      rw [fileName_slash, fileName_slash, fileName_eq_self hslash] at hsame
      exact absurd hsame hkey
    · rintro rfl
      exact absurd hbare.small.lower hext
  · rw [stripExtension_slash folder hbare, Text.lower_slash]
    have hstrip : '/' ∉ Text.lower (stripExtension name) := by
      rwa [Text.slash_mem_lower, slash_mem_stripExtension]
    constructor
    · rintro ⟨front, hsuffix⟩
      have hsame := congrArg fileName hsuffix
      rw [fileName_slash, fileName_slash, fileName_eq_self hslash, fileName_eq_self hstrip] at hsame
      exact hsame.symm
    · rintro rfl
      exact ⟨_, rfl⟩

section Targets

variable {t : List Char} (note : String × String)

/-- By name, the target leads to notes whose path it spells as a whole or behind a slash. -/
theorem names_iff_whole_or_below (ht : t ≠ []) (hroot : t.head? ≠ some '/')
    (hext : ¬ IsExtension (stripExtension (Text.lower t))) :
    Rule.name.Names t note ↔ NamesWhole t note ∨ NamesBelow t note := by
  have hhead : (stripExtension (Text.lower t)).head? ≠ some '/' := by
    rw [head?_stripExtension]
    exact fun hmem => hroot (Text.slash_of_head?_lower hmem)
  have hkey : stripExtension (Text.lower t) ≠ [] := by
    rw [Ne, ← List.head?_eq_none_iff, head?_stripExtension, List.head?_eq_none_iff,
      Text.lower_eq_nil]
    exact ht
  by_cases hslash : '/' ∈ t
  · rw [Rule.names_of_slash note hslash, dropWhile_slash hhead]
    rfl
  · rw [Rule.names_of_no_slash note hslash, NamesWhole, NamesBelow]
    rw [← slash_mem_key] at hslash
    by_cases hpath : '/' ∈ note.1.toList
    · obtain ⟨folder, hfolder⟩ := exists_folder hpath
      have hwhole : Text.lower (stripExtension note.1.toList) ≠ stripExtension (Text.lower t) := by
        intro hsame
        rw [← hsame, Text.slash_mem_lower, slash_mem_stripExtension] at hslash
        exact hslash hpath
      rw [or_iff_right hwhole]
      conv_rhs => rw [hfolder]
      exact (names_below_of_folder hkey hslash hext folder _ (slash_notMem_fileName _)).symm
    · have hbelow : ¬ '/' :: stripExtension (Text.lower t) <:+
          Text.lower (stripExtension note.1.toList) := by
        intro hsuffix
        have hmem := hsuffix.subset List.mem_cons_self
        rw [Text.slash_mem_lower, slash_mem_stripExtension] at hmem
        exact hpath hmem
      rw [fileName_eq_self hpath, or_iff_left hbelow]

/-- With a slash in front, only what stands behind a slash of the path counts. -/
theorem names_rooted (hroot : t.head? ≠ some '/') : Rule.name.Names ('/' :: t) note ↔
    stripExtension (Text.lower ('/' :: t)) <:+ Text.lower (stripExtension note.1.toList) := by
  have hlower : Text.lower ('/' :: t) = '/' :: Text.lower t := Text.lower_slash [] t
  have hhead : (Text.lower t).head? ≠ some '/' := fun hmem => hroot (Text.slash_of_head?_lower hmem)
  obtain ⟨key, hkey, hfirst⟩ : ∃ key, stripExtension (Text.lower ('/' :: t)) = '/' :: key ∧
      key.head? ≠ some '/' := by
    rw [hlower]
    rcases stripExtension_cases ('/' :: Text.lower t) with
      ⟨base, ext, hsplit, hbase, _, hstrip⟩ | hstrip
    · obtain ⟨c, key, rfl⟩ := List.exists_cons_of_ne_nil hbase
      rw [List.cons_append, List.cons_eq_cons] at hsplit
      obtain ⟨rfl, hrest⟩ := hsplit
      refine ⟨key, hstrip, fun hmem => hhead ?_⟩
      rw [hrest, List.head?_append, hmem]
      rfl
    · exact ⟨_, hstrip, hhead⟩
  have hdrop : ('/' :: key).dropWhile (· == '/') = key := dropWhile_slash hfirst
  rw [Rule.names_of_slash note List.mem_cons_self, hkey, hdrop]
  constructor
  · rintro (hsame | hsuffix)
    · exact hsame ▸ List.suffix_rfl
    · exact hsuffix
  · exact .inr

/-- A path that the target spells as a whole is too short to have it behind a slash. -/
theorem names_below_iff (ht : t ≠ []) (hroot : t.head? ≠ some '/')
    (hext : ¬ IsExtension (stripExtension (Text.lower t))) :
    NamesBelow t note ↔ Rule.name.Names t note ∧ ¬ NamesWhole t note := by
  rw [names_iff_whole_or_below note ht hroot hext]
  constructor
  · intro hbelow
    refine ⟨.inr hbelow, fun hwhole => ?_⟩
    have hlength := hbelow.length_le
    rw [hwhole, List.length_cons] at hlength
    omega
  · rintro ⟨hnames, hwhole⟩
    exact hnames.resolve_left hwhole

/-- A slash in front does not change what is taken off, unless an extension would be left over. -/
theorem stripExtension_lower_rooted (hext : ¬ IsExtension (stripExtension (Text.lower t))) :
    stripExtension (Text.lower ('/' :: t)) = '/' :: stripExtension (Text.lower t) := by
  have hbare : ¬ IsExtension (Text.lower t) := fun hbare =>
    hext (by rwa [stripExtension_of_isExtension hbare])
  rw [show Text.lower ('/' :: t) = [] ++ '/' :: Text.lower t from Text.lower_slash [] t,
    stripExtension_slash [] hbare]
  rfl

end Targets

section Notes

variable (notes : List (String × String)) {target : String}

theorem head?_trimEnd (hroot : target.toList.head? ≠ some '/') :
    (Text.trimEnd target.toList).head? ≠ some '/' := by
  obtain ⟨rest, happend⟩ : Text.trimEnd target.toList <+: target.toList :=
    List.rdropWhile_prefix Text.isBlank _
  intro hhead
  rw [← happend, List.head?_append, hhead] at hroot
  exact hroot rfl

theorem rooted_isSome_iff (hroot : target.toList.head? ≠ some '/') :
    ((Resolver.ofNotes notes).position? ("/" ++ target)).isSome = true ↔ ∃ note ∈ notes,
      Rule.path.Names ('/' :: Text.trimEnd target.toList) note ∨
        Rule.title.Names ('/' :: Text.trimEnd target.toList) note ∨
          stripExtension (Text.lower ('/' :: Text.trimEnd target.toList)) <:+
            Text.lower (stripExtension note.1.toList) := by
  have htrim : Text.trim ("/" ++ target).toList = '/' :: Text.trimEnd target.toList := by
    rw [String.toList_append]
    exact Text.trim_slash target.toList
  have hend := head?_trimEnd hroot
  rw [Resolver.position?_isSome, htrim]
  constructor
  · rintro ⟨_, rule, note, hnote, hnames⟩
    refine ⟨note, hnote, ?_⟩
    cases rule with
    | path => exact .inl hnames
    | title => exact .inr (.inl hnames)
    | name => exact .inr (.inr ((names_rooted note hend).mp hnames))
  · rintro ⟨note, hnote, hnames⟩
    refine ⟨List.cons_ne_nil _ _, ?_⟩
    rcases hnames with hpath | htitle | hname
    · exact ⟨.path, note, hnote, hpath⟩
    · exact ⟨.title, note, hnote, htitle⟩
    · exact ⟨.name, note, hnote, (names_rooted note hend).mpr hname⟩

end Notes

/-- A target with a slash put in front of it resolves if and only if some note has it as its path or
title, or has it at the end of its path. Of the notes to which the target leads by name without the
slash it loses those whose path the target spells as a whole. -/
theorem rooted_target_resolves_iff (notes : List (String × String)) (target : String)
    (hroot : target.toList.head? ≠ some '/') :
    let r := Resolver.ofNotes notes
    let rooted := '/' :: Text.trimEnd target.toList
    let t := Text.trim target.toList
    ((r.position? ("/" ++ target)).isSome = true ↔ ∃ note ∈ notes,
      Rule.path.Names rooted note ∨ Rule.title.Names rooted note ∨
        stripExtension (Text.lower rooted) <:+ Text.lower (stripExtension note.1.toList)) ∧
    (t ≠ [] → (∀ c ∈ target.toList.head?, Text.isBlank c = false) →
      ¬ IsExtension (stripExtension (Text.lower t)) →
      ((r.position? ("/" ++ target)).isSome = true ↔ ∃ note ∈ notes,
        Rule.path.Names ('/' :: t) note ∨ Rule.title.Names ('/' :: t) note ∨
          Rule.name.Names t note ∧ ¬ NamesWhole t note)) := by
  intro r rooted t
  have hgeneral := rooted_isSome_iff notes hroot
  refine ⟨hgeneral, fun ht hblank hext => hgeneral.trans ?_⟩
  have hsame : Text.trimEnd target.toList = t :=
    (congrArg Text.trimEnd (Text.trimStart_eq_self.mpr hblank)).symm
  have hend := head?_trimEnd hroot
  rw [hsame] at hend
  rw [hsame, stripExtension_lower_rooted hext]
  exact exists_congr fun note => and_congr_right' <| or_congr_right <| or_congr_right <|
    names_below_iff note ht hend hext

/-- A file name leads to a note in a folder with a slash in front, too. -/
theorem rooted_target_resolves_docker :
    let notes := [("tech/docker.md", "Whale")]
    "docker".toList.head? ≠ some '/' ∧
      Rule.path.search? notes "docker".toList = none ∧
      Rule.title.search? notes "docker".toList = none ∧
      Rule.name.search? notes "docker".toList = some 0 ∧
      ((Resolver.ofNotes notes).position? ("/" ++ "docker")).isSome = true := by
  intro notes
  have hfirst : "docker".toList.head? = some 'd' := by decide
  have hroot : "docker".toList.head? ≠ some '/' := by decide
  have hblank : ∀ c ∈ "docker".toList.head?, Text.isBlank c = false := by
    rw [hfirst]
    rintro c ⟨⟩
    decide
  have hresolves := (rooted_target_resolves_iff notes "docker" hroot).2 (by decide +kernel) hblank
    (by decide +kernel)
  refine ⟨hroot, by decide +kernel, by decide +kernel, by decide +kernel, hresolves.mpr ?_⟩
  exact ⟨_, List.mem_singleton_self _, .inr (.inr (by decide +kernel))⟩

/-- A target that spells a path as a whole, by name alone, is lost with a slash in front. -/
theorem rooted_target_lost_at_root :
    let notes := [("note.md", "One"), ("tech/docker.md", "Whale")]
    let r := Resolver.ofNotes notes
    ∀ target ∈ ["note", "tech/docker"], target.toList.head? ≠ some '/' ∧
      Rule.path.search? notes target.toList = none ∧
      Rule.title.search? notes target.toList = none ∧
      (r.position? target).isSome = true ∧ r.position? ("/" ++ target) = none := by
  intro notes r
  simp only [r, Resolver.position?_eq_search?]
  decide +kernel

end Graph

end Slipbox

