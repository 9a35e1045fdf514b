import Slipbox.Graph.Resolver
import Slipbox.Proofs.Text.Sigma

/-! Extensions and letter case. A target is made small before its extension is taken off, a path
afterwards. It comes to the same unless the text falls apart: what stands before the extension ends
in a capital sigma, which is no longer at the end of a word with the extension behind it, or the
extension itself is spelled with a Kelvin sign and is one in small letters only. -/

namespace Slipbox.Graph

/-- The text is a document extension in some ASCII letter case. -/
def IsExtension (text : List Char) : Prop :=
  text.map Char.toLower ∈ documentExtensions.map String.toList

/-- The lower case of the text is a document extension. -/
def IsSmallExtension (text : List Char) : Prop :=
  Text.lower text ∈ documentExtensions.map String.toList

instance (text : List Char) : Decidable (IsExtension text) :=
  inferInstanceAs (Decidable (_ ∈ _))

instance (text : List Char) : Decidable (IsSmallExtension text) :=
  inferInstanceAs (Decidable (_ ∈ _))

section Extensions

variable {text base ext base' ext' : List Char}

theorem ascii_of_mem_extensions {e : List Char} (he : e ∈ documentExtensions.map String.toList) :
    ∀ x ∈ e, x.toNat < 0x80 := by
  have hall : ∀ e ∈ documentExtensions.map String.toList, (e.all (·.toNat < 0x80)) = true := by
    decide
  intro x hx
  exact of_decide_eq_true (List.all_eq_true.mp (hall e he) x hx)

theorem IsExtension.ascii (h : IsExtension ext) : ∀ c ∈ ext, c.toNat < 0x80 := by
  intro c hc
  have hlower := ascii_of_mem_extensions h c.toLower (List.mem_map_of_mem hc)
  by_contra hbeyond
  rw [Text.toLower_beyond (Nat.not_lt.mp hbeyond)] at hlower
  exact hbeyond hlower

theorem IsExtension.small (h : IsExtension ext) : IsSmallExtension ext := by
  rw [IsSmallExtension, Text.lower_of_ascii h.ascii]
  exact h

theorem IsSmallExtension.no_sigma (h : IsSmallExtension ext) : 'Σ' ∉ ext :=
  Text.no_sigma_of_ascii (ascii_of_mem_extensions h)

/-- An extension in small letters is one in capitals, too, unless a Kelvin sign is among them. -/
theorem IsSmallExtension.isExtension_iff (h : IsSmallExtension ext) :
    IsExtension ext ↔ '\u212A' ∉ ext := by
  constructor
  · intro hext hkelvin
    exact absurd (hext.ascii _ hkelvin) (by decide)
  · intro hkelvin
    have hascii : ∀ c ∈ ext, c.toNat < 0x80 := fun c hc =>
      (Text.ascii_of_lowerAfter (ascii_of_mem_extensions h) c hc).resolve_right
        fun hsame => hkelvin (hsame ▸ hc)
    rw [IsExtension, ← Text.lower_of_ascii hascii]
    exact h

theorem IsSmallExtension.no_slash (h : IsSmallExtension ext) : '/' ∉ ext := by
  have hall : ∀ e ∈ documentExtensions.map String.toList, '/' ∉ e := by decide
  exact fun hmem => hall _ h (Text.slash_mem_lower.mpr hmem)

/-- An extension in front of which a text stands is no part of a longer one. -/
theorem eq_of_append_eq (hext : IsSmallExtension ext) (hext' : IsSmallExtension ext')
    (h : base ++ ext = base' ++ ext') : base = base' ∧ ext = ext' := by
  have hlonger {w v : List Char} (hwv : IsSmallExtension (w ++ v)) (hv : IsSmallExtension v) :
      w = [] := by
    have hno := hwv.no_sigma
    have hw : 'Σ' ∉ w := fun hmem => hno (List.mem_append_left v hmem)
    have hsplit : Text.lower (w ++ v) = Text.lower w ++ Text.lower v := by
      simp only [Text.lower, Text.lowerAfter_of_no_sigma hno, Text.lowerAfter_of_no_sigma hw,
        Text.lowerAfter_of_no_sigma hv.no_sigma, List.flatMap_append]
    have hsame : ∀ e ∈ documentExtensions.map String.toList,
        ∀ e' ∈ documentExtensions.map String.toList, e' <:+ e → e.length = e'.length := by
      decide
    have hlength := hsame _ hwv _ hv ⟨Text.lower w, hsplit.symm⟩
    rw [hsplit, List.length_append] at hlength
    exact Text.lower_eq_nil.mp (List.eq_nil_of_length_eq_zero (by omega))
  rcases List.append_eq_append_iff.mp h with ⟨w, rfl, rfl⟩ | ⟨w, rfl, rfl⟩
  · rw [hlonger hext hext']
    exact ⟨(List.append_nil _).symm, rfl⟩
  · rw [hlonger hext' hext]
    exact ⟨List.append_nil _, rfl⟩

theorem withoutExtension?_eq_some {e : List Char} :
    withoutExtension? e text = some base ↔
      base ≠ [] ∧ ∃ ext, text = base ++ ext ∧ ext.map Char.toLower = e.map Char.toLower := by
  unfold withoutExtension?
  dsimp only
  constructor
  · intro h
    split at h
    · next hfits =>
      cases h
      refine ⟨fun hnil => ?_, _, (List.take_append_drop _ _).symm, hfits.2⟩
      have hlength := congrArg List.length hnil
      rw [List.length_take, List.length_nil] at hlength
      omega
    · cases h
  · rintro ⟨hbase, ext, rfl, hext⟩
    have hlength : ext.length = e.length := by simpa using congrArg List.length hext
    have hpos : 0 < base.length := List.length_pos_of_ne_nil hbase
    have hn : (base ++ ext).length - e.length = base.length := by
      rw [List.length_append, hlength, Nat.add_sub_cancel]
    rw [hn, List.take_left, List.drop_left, if_pos]
    refine ⟨?_, hext⟩
    rw [List.length_append, hlength]
    omega

theorem findSome?_extensions :
    (documentExtensions.findSome? fun e => withoutExtension? e.toList text) = some base ↔
      base ≠ [] ∧ ∃ ext, text = base ++ ext ∧ IsExtension ext := by
  have hsmall : ∀ e ∈ documentExtensions, e.toList.map Char.toLower = e.toList := by decide
  have hfits {base : List Char} (h : (documentExtensions.findSome? fun e =>
      withoutExtension? e.toList text) = some base) :
      base ≠ [] ∧ ∃ ext, text = base ++ ext ∧ IsExtension ext := by
    obtain ⟨e, he, hbase⟩ := List.exists_of_findSome?_eq_some h
    obtain ⟨hne, ext, htext, hext⟩ := withoutExtension?_eq_some.mp hbase
    refine ⟨hne, ext, htext, ?_⟩
    rw [IsExtension, hext, hsmall e he]
    exact List.mem_map_of_mem he
  refine ⟨hfits, ?_⟩
  rintro ⟨hne, ext, htext, hext⟩
  obtain ⟨e, he, hsame⟩ := List.mem_map.mp hext
  have hfound : (documentExtensions.findSome? fun e => withoutExtension? e.toList text).isSome := by
    rw [List.findSome?_isSome_iff]
    refine ⟨e, he, Option.isSome_iff_exists.mpr ⟨base, ?_⟩⟩
    exact withoutExtension?_eq_some.mpr ⟨hne, ext, htext, hsame.symm.trans (hsmall e he).symm⟩
  obtain ⟨base', hbase'⟩ := Option.isSome_iff_exists.mp hfound
  obtain ⟨_, ext', htext', hext'⟩ := hfits hbase'
  rw [hbase', (eq_of_append_eq hext'.small hext.small (htext'.symm.trans htext)).1]

/-- What stands before an extension is left when the extension is taken off. -/
theorem stripExtension_append (hbase : base ≠ []) (hext : IsExtension ext) :
    stripExtension (base ++ ext) = base := by
  rw [stripExtension, findSome?_extensions.mpr ⟨hbase, ext, rfl, hext⟩, Option.getD_some]

/-- An extension that makes up the whole text is not taken off. -/
theorem stripExtension_eq_self (h : ∀ base ext, text = base ++ ext → IsExtension ext → base = []) :
    stripExtension text = text := by
  rw [stripExtension]
  cases hfound : documentExtensions.findSome? fun e => withoutExtension? e.toList text with
  | none => rfl
  | some base =>
      obtain ⟨hbase, ext, htext, hext⟩ := findSome?_extensions.mp hfound
      exact absurd (h base ext htext hext) hbase

theorem stripExtension_of_isExtension (hext : IsExtension ext) : stripExtension ext = ext := by
  refine stripExtension_eq_self fun base ext' h hext' => ?_
  rw [← List.nil_append ext] at h
  exact (eq_of_append_eq hext.small hext'.small h).1.symm

/-- Either an extension is taken off or the text stays as it is. -/
theorem stripExtension_cases (text : List Char) :
    (∃ base ext, text = base ++ ext ∧ base ≠ [] ∧ IsExtension ext ∧ stripExtension text = base) ∨
      stripExtension text = text := by
  by_cases h : ∀ base ext, text = base ++ ext → IsExtension ext → base = []
  · exact .inr (stripExtension_eq_self h)
  · simp only [not_forall] at h
    obtain ⟨base, ext, rfl, hext, hbase⟩ := h
    exact .inl ⟨base, ext, rfl, hbase, hext, stripExtension_append hbase hext⟩

theorem head?_stripExtension (text : List Char) : (stripExtension text).head? = text.head? := by
  rcases stripExtension_cases text with ⟨base, ext, rfl, hbase, _, hstrip⟩ | hstrip
  · rw [hstrip, List.head?_append_of_ne_nil base hbase]
  · rw [hstrip]

theorem not_isExtension_nil : ¬ IsExtension [] := by decide

/-- Behind a slash an extension is taken off as from a text of its own, unless there is nothing
else. -/
theorem stripExtension_slash (front : List Char) (hbare : ¬ IsExtension text) :
    stripExtension (front ++ '/' :: text) = front ++ '/' :: stripExtension text := by
  rcases stripExtension_cases text with ⟨base, ext, rfl, hbase, hext, hstrip⟩ | hstrip
  · rw [hstrip, ← List.cons_append, ← List.append_assoc]
    exact stripExtension_append (by simp) hext
  · rw [hstrip]
    refine stripExtension_eq_self fun base ext h hext => ?_
    have hslash := hext.small.no_slash
    rcases List.append_eq_append_iff.mp h with ⟨middle, rfl, hmiddle⟩ | ⟨middle, rfl, rfl⟩
    · cases middle with
      | nil =>
          rw [List.nil_append] at hmiddle
          exact absurd (hmiddle ▸ List.mem_cons_self) hslash
      | cons c middle =>
          rw [List.cons_append, List.cons_eq_cons] at hmiddle
          obtain ⟨rfl, rfl⟩ := hmiddle
          by_cases hnil : middle = []
          · exact absurd (by rwa [hnil]) hbare
          · rw [stripExtension_append hnil hext, List.self_eq_append_right] at hstrip
            exact absurd (hstrip ▸ hext) not_isExtension_nil
    · exact absurd (List.mem_append_right middle List.mem_cons_self) hslash

theorem IsSmallExtension.lower (h : IsSmallExtension ext) : IsExtension (Text.lower ext) := by
  have hall : ∀ e ∈ documentExtensions.map String.toList, e.map Char.toLower = e := by decide
  rw [IsExtension, hall _ h]
  exact h

theorem lower_append_extension (base : List Char) (hext : IsSmallExtension ext) :
    Text.lower (base ++ ext) = Text.lowerBetween [] base ext ++ Text.lower ext := by
  simp only [Text.lower, Text.lowerAfter_append, Text.lowerAfter_of_no_sigma hext.no_sigma]

/-- A text in small letters goes without what becomes an extension in them. -/
theorem stripExtension_lower_append (hbase : base ≠ []) (hext : IsSmallExtension ext) :
    stripExtension (Text.lower (base ++ ext)) = Text.lowerBetween [] base ext := by
  rw [lower_append_extension base hext]
  refine stripExtension_append (fun hnil => ?_) hext.lower
  obtain ⟨c, cs, rfl⟩ := List.exists_cons_of_ne_nil hbase
  rw [Text.lowerBetween, List.append_eq_nil_iff] at hnil
  exact Text.smallAt_ne_nil _ _ _ hnil.1

theorem stripExtension_lower_eq_self
    (h : ∀ base ext, text = base ++ ext → IsSmallExtension ext → base = []) :
    stripExtension (Text.lower text) = Text.lower text := by
  refine stripExtension_eq_self fun base ext hlower hext => ?_
  have hdot : ext.head? ≠ some '\u0307' := fun hhead =>
    absurd (hext.ascii _ (List.mem_of_mem_head? hhead)) (by decide)
  obtain ⟨front, back, rfl, hback⟩ :=
    Text.exists_of_suffix_lowerAfter hdot ⟨base, hlower.symm⟩
  have hno : 'Σ' ∉ back := Text.no_sigma_of_ascii fun x hx => hext.ascii x (hback ▸ hx)
  have hsmall : Text.lower back = ext := by
    rw [← hback, Text.lower, Text.lowerAfter_of_no_sigma hno, Text.lowerAfter_of_no_sigma hno]
  have hkept : ext.map Char.toLower = ext := by
    rw [← hback]
    exact (List.map_congr_left fun x hx => Text.toLower_of_mem_lowerAfter hx).trans (List.map_id _)
  have hext' : IsSmallExtension back := by
    rw [IsSmallExtension, hsmall, ← hkept]
    exact hext
  rw [h front back rfl hext', List.nil_append, hsmall] at hlower
  simpa using hlower

end Extensions

section FileNames

variable {front back : List Char}

theorem slash_notMem_fileName (path : List Char) : '/' ∉ fileName path := by
  intro h
  have hkept := List.mem_takeWhile_imp (List.mem_reverse.mp h)
  exact absurd rfl (bne_iff_ne.mp hkept)

theorem fileName_append (hback : '/' ∉ back) :
    fileName (front ++ back) = fileName front ++ back := by
  have hkept : ∀ c ∈ back.reverse, (c != '/') = true := fun c hc =>
    bne_iff_ne.mpr fun hslash => hback (hslash ▸ List.mem_reverse.mp hc)
  rw [fileName, List.reverse_append, List.takeWhile_append_of_pos hkept, List.reverse_append,
    List.reverse_reverse]
  rfl

/-- The file name does not go back beyond a slash. -/
theorem fileName_slash (front back : List Char) :
    fileName (front ++ '/' :: back) = fileName back := by
  have hstop (xs : List Char) :
      (xs ++ '/' :: front.reverse).takeWhile (· != '/') = xs.takeWhile (· != '/') := by
    induction xs with
    | nil => rfl
    | cons c xs ih => rw [List.cons_append, List.takeWhile_cons, List.takeWhile_cons, ih]
  rw [fileName, List.reverse_append, List.reverse_cons, List.append_assoc, List.singleton_append,
    hstop]
  rfl

theorem fileName_eq_self (h : '/' ∉ back) : fileName back = back := by
  change fileName ([] ++ back) = [] ++ back
  exact fileName_append h

/-- A path with a slash is a folder, a slash and a file name. -/
theorem exists_folder (h : '/' ∈ back) : ∃ folder, back = folder ++ '/' :: fileName back := by
  obtain ⟨front, rest, hreverse, hfront⟩ := List.eq_append_cons_of_mem (List.mem_reverse.mpr h)
  have hback : back = rest.reverse ++ '/' :: front.reverse := by
    rw [← List.reverse_reverse back, hreverse, List.reverse_append, List.reverse_cons,
      List.append_assoc, List.singleton_append]
  have hname : '/' ∉ front.reverse := fun hmem => hfront (List.mem_reverse.mp hmem)
  exact ⟨rest.reverse, by rw [hback, fileName_slash, fileName_eq_self hname]⟩

theorem slash_mem_stripExtension {path : List Char} : '/' ∈ stripExtension path ↔ '/' ∈ path := by
  rcases stripExtension_cases path with ⟨base, ext, rfl, _, hext, hstrip⟩ | hstrip
  · rw [hstrip, List.mem_append, or_iff_left hext.small.no_slash]
  · rw [hstrip]

end FileNames

/-- Making the text small and taking its extension off has not the same result as the other way
round. -/
def FoldsApart (text : List Char) : Prop :=
  ∃ base ext, text = base ++ ext ∧ base ≠ [] ∧ IsSmallExtension ext ∧
    (Text.EndsInSigma base ∨ '\u212A' ∈ ext)

theorem not_foldsApart_of_plain {text : List Char} (hsigma : 'Σ' ∉ text)
    (hkelvin : '\u212A' ∉ text) : ¬ FoldsApart text := by
  rintro ⟨base, ext, rfl, _, _, ⟨word, rest, rfl, _, _⟩ | hmem⟩
  · simp at hsigma
  · exact hkelvin (List.mem_append_right base hmem)

/-- A text that falls apart differs in its file name. -/
theorem FoldsApart.fileName_ne {text : List Char} (h : FoldsApart text) :
    fileName (stripExtension (Text.lower text)) ≠ fileName (Text.lower (stripExtension text)) := by
  obtain ⟨base, ext, rfl, hbase, hext, hcause⟩ := h
  rw [stripExtension_lower_append hbase hext]
  by_cases hkelvin : '\u212A' ∈ ext
  · have hself : stripExtension (base ++ ext) = base ++ ext := by
      refine stripExtension_eq_self fun base' ext' hsame hext' => ?_
      obtain ⟨rfl, rfl⟩ := eq_of_append_eq hext hext'.small hsame
      exact absurd hkelvin (hext.isExtension_iff.mp hext')
    have hslash : '/' ∉ Text.lower ext := fun hmem =>
      hext.no_slash (Text.slash_mem_lower.mp hmem)
    have hne : Text.lower ext ≠ [] := by
      intro hnil
      rw [Text.lower_eq_nil.mp hnil] at hkelvin
      cases hkelvin
    rw [hself, lower_append_extension base hext, fileName_append hslash]
    intro hsame
    exact hne (List.self_eq_append_right.mp hsame)
  · have hplain := hext.isExtension_iff.mpr hkelvin
    have hletter : Text.touchesLetter ext = true := by
      have hall : ∀ e ∈ documentExtensions.map String.toList, Text.touchesLetter e = true := by
        decide +kernel
      rw [← Text.touchesLetter_toLower]
      exact hall _ hplain
    obtain ⟨front, back, hbetween, hlower, hback⟩ :=
      (hcause.resolve_right hkelvin).lower_ne hletter
    have hslash (c : Char) (hc : c ≠ '/') : '/' ∉ c :: back := by
      rw [List.mem_cons, not_or]
      exact ⟨Ne.symm hc, hback⟩
    rw [stripExtension_append hbase hplain, hbetween, hlower,
      fileName_append (hslash _ (by decide)), fileName_append (hslash _ (by decide))]
    intro hsame
    have hsigma := (List.cons_eq_cons.mp (List.append_cancel_left hsame)).1
    revert hsigma
    decide

/-- Making a text small and taking its extension off may be exchanged, unless it falls apart. -/
theorem stripExtension_lower_iff {text : List Char} :
    stripExtension (Text.lower text) = Text.lower (stripExtension text) ↔ ¬ FoldsApart text := by
  constructor
  · exact fun hsame hapart => hapart.fileName_ne (congrArg fileName hsame)
  · intro h
    by_cases hnone : ∀ base ext, text = base ++ ext → IsSmallExtension ext → base = []
    · rw [stripExtension_lower_eq_self hnone, stripExtension_eq_self fun base ext htext hext =>
        hnone base ext htext hext.small]
    · simp only [not_forall] at hnone
      obtain ⟨base, ext, rfl, hext, hbase⟩ := hnone
      have hsigma : ¬ Text.EndsInSigma base := fun hend =>
        h ⟨base, ext, rfl, hbase, hext, .inl hend⟩
      have hkelvin : '\u212A' ∉ ext := fun hmem => h ⟨base, ext, rfl, hbase, hext, .inr hmem⟩
      rw [stripExtension_lower_append hbase hext, Text.lowerBetween_eq_lower hsigma,
        stripExtension_append hbase (hext.isExtension_iff.mpr hkelvin)]

end Slipbox.Graph
