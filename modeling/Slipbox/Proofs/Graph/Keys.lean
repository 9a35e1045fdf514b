import Mathlib.Data.Finset.Card
import Mathlib.Data.Finset.Lattice.Basic
import Slipbox.Graph.Related
import Slipbox.Proofs.Text.Bytes

/-! The keys that notes are compared by. Entered one after the other they stand in order, each once
and with one of its texts, so the common keys and the numbers of keys are those of two sets. -/

namespace Slipbox.Graph

/-- The different keys of some texts. -/
def keySet (texts : List String) : Finset String :=
  (texts.map Text.lowercase).toFinset

theorem mem_keySet {texts : List String} {key : String} :
    key ∈ keySet texts ↔ ∃ s ∈ texts, Text.lowercase s = key := by
  rw [keySet, List.mem_toFinset, List.mem_map]

namespace Keys

section Insert

variable {key shown : String} {keys : Keys} {entry : String × String}

theorem mem_insert (h : entry ∈ keys.insert key shown) : entry = (key, shown) ∨ entry ∈ keys := by
  fun_induction keys.insert key shown with
  | case1 => exact .inl (List.mem_singleton.mp h)
  | case2 => exact List.mem_cons.mp h
  | case3 => exact (List.mem_cons.mp h).imp_right (List.mem_cons_of_mem _)
  | case4 k s rest hlt hne ih =>
      rcases List.mem_cons.mp h with rfl | h
      · exact .inr List.mem_cons_self
      · exact (ih h).imp_right (List.mem_cons_of_mem _)

theorem mem_keys_insert {k : String} :
    k ∈ (keys.insert key shown).map Prod.fst ↔ k = key ∨ k ∈ keys.map Prod.fst := by
  fun_induction keys.insert key shown with
  | case1 => simp
  | case2 => simp
  | case3 => simp
  | case4 k' s rest hlt hne ih =>
      simp only [List.map_cons, List.mem_cons, ih]
      exact or_left_comm

theorem insert_increasing (h : keys.Pairwise fun a b => a.1 < b.1) :
    (keys.insert key shown).Pairwise fun a b => a.1 < b.1 := by
  fun_induction keys.insert key shown with
  | case1 => exact List.pairwise_singleton _ _
  | case2 k s rest hlt =>
      refine List.pairwise_cons.mpr ⟨fun entry hentry => ?_, h⟩
      rcases List.mem_cons.mp hentry with rfl | hentry
      · exact hlt
      · exact hlt.trans (List.rel_of_pairwise_cons h hentry)
  | case3 s rest =>
      refine List.pairwise_cons.mpr ⟨fun entry hentry => ?_, h.of_cons⟩
      exact List.rel_of_pairwise_cons h hentry
  | case4 k s rest hlt hne ih =>
      refine List.pairwise_cons.mpr ⟨fun entry hentry => ?_, ih h.of_cons⟩
      rcases mem_insert hentry with rfl | hentry
      · exact lt_of_le_of_ne (not_lt.mp hlt) (Ne.symm hne)
      · exact List.rel_of_pairwise_cons h hentry

end Insert

/-- The keys of some texts: in order, each with a text that it is the key of. -/
structure Of (texts : List String) (keys : Keys) : Prop where
  increasing : keys.Pairwise fun a b => a.1 < b.1
  shown : ∀ entry ∈ keys, entry.2 ∈ texts ∧ Text.lowercase entry.2 = entry.1
  complete : ∀ s ∈ texts, Text.lowercase s ∈ keys.map Prod.fst

theorem Of.insert {texts : List String} {keys : Keys} (h : Of texts keys) (s : String) :
    Of (texts ++ [s]) (keys.insert (Text.lowercase s) s) := by
  refine ⟨insert_increasing h.increasing, fun entry hentry => ?_, fun s' hs' => ?_⟩
  · rcases mem_insert hentry with rfl | hentry
    · exact ⟨by simp, rfl⟩
    · exact (h.shown entry hentry).imp_left (List.mem_append_left _)
  · rw [mem_keys_insert]
    rcases List.mem_append.mp hs' with hs' | hs'
    · exact .inr (h.complete s' hs')
    · exact .inl (congrArg _ (List.mem_singleton.mp hs'))

theorem of_ofTexts (texts : List String) : Of texts (ofTexts texts) := by
  have hfold : ∀ (more seen : List String) (keys : Keys), Of seen keys →
      Of (seen ++ more) (more.foldl (fun keys s => keys.insert (Text.lowercase s) s) keys) := by
    intro more
    induction more with
    | nil => exact fun seen keys h => by rwa [List.append_nil]
    | cons s more ih =>
        intro seen keys h
        rw [List.foldl_cons, List.append_cons]
        exact ih _ _ (h.insert s)
  exact hfold texts [] [] ⟨.nil, nofun, nofun⟩

theorem Of.of_perm {texts texts' : List String} {keys : Keys} (h : Of texts keys)
    (hperm : texts.Perm texts') : Of texts' keys :=
  ⟨h.increasing, fun entry hentry => (h.shown entry hentry).imp_left hperm.mem_iff.mp,
    fun s hs => h.complete s (hperm.mem_iff.mpr hs)⟩

section Of

variable {texts texts' : List String} {a b : Keys}

theorem Of.nodup (h : Of texts a) : (a.map Prod.fst).Nodup :=
  List.pairwise_map.mpr (h.increasing.imp fun hlt => hlt.ne)

theorem Of.mem_keys (h : Of texts a) {key : String} :
    key ∈ a.map Prod.fst ↔ key ∈ keySet texts := by
  rw [mem_keySet]
  constructor
  · intro hkey
    obtain ⟨entry, hentry, rfl⟩ := List.mem_map.mp hkey
    exact ⟨entry.2, h.shown entry hentry⟩
  · rintro ⟨s, hs, rfl⟩
    exact h.complete s hs

theorem Of.length (h : Of texts a) : a.length = (keySet texts).card := by
  have hsame : (a.map Prod.fst).toFinset = keySet texts := by
    ext key
    rw [List.mem_toFinset, h.mem_keys]
  rw [← hsame, List.toFinset_card_of_nodup h.nodup, List.length_map]

end Of

end Keys

/-- Texts shown for the common keys of two notes: one text of the first note for each key, in the
order of the keys. -/
structure Evidence (texts texts' shown : List String) : Prop where
  own : ∀ s ∈ shown, s ∈ texts
  keys : keySet shown = keySet texts ∩ keySet texts'
  ordered : shown.Pairwise fun s s' =>
    Text.bytes (Text.lowercase s) < Text.bytes (Text.lowercase s')

theorem Evidence.length {texts texts' shown : List String} (h : Evidence texts texts' shown) :
    shown.length = (keySet texts ∩ keySet texts').card := by
  have hnodup : (shown.map Text.lowercase).Nodup :=
    List.pairwise_map.mpr (h.ordered.imp fun hlt => (Text.bytes_lt_iff.mp hlt).ne)
  rw [← h.keys, keySet, List.toFinset_card_of_nodup hnodup, List.length_map]

namespace Keys

variable {texts texts' : List String} {a b : Keys}

/-- The common keys of two notes, with the texts of the first. -/
theorem Of.evidence (ha : Of texts a) (hb : Of texts' b) : Evidence texts texts' (a.shared b) := by
  have hshared {entry : String × String} :
      entry ∈ (a.filter fun entry => b.any fun other => other.1 == entry.1) ↔
        entry ∈ a ∧ entry.1 ∈ keySet texts' := by
    rw [List.mem_filter, ← hb.mem_keys]
    simp [List.any_eq_true]
  refine ⟨fun s hs => ?_, ?_, List.pairwise_map.mpr ?_⟩
  · obtain ⟨entry, hentry, rfl⟩ := List.mem_map.mp hs
    exact (ha.shown entry (hshared.mp hentry).1).1
  · ext key
    rw [mem_keySet, Finset.mem_inter, ← ha.mem_keys]
    constructor
    · rintro ⟨s, hs, rfl⟩
      obtain ⟨entry, hentry, rfl⟩ := List.mem_map.mp hs
      obtain ⟨hmem, hother⟩ := hshared.mp hentry
      rw [(ha.shown entry hmem).2]
      exact ⟨List.mem_map_of_mem hmem, hother⟩
    · rintro ⟨hkey, hother⟩
      obtain ⟨entry, hmem, rfl⟩ := List.mem_map.mp hkey
      exact ⟨entry.2, List.mem_map_of_mem (hshared.mpr ⟨hmem, hother⟩), (ha.shown entry hmem).2⟩
  · refine (ha.increasing.sublist List.filter_sublist).imp_of_mem fun hs hs' hlt => ?_
    rw [(ha.shown _ (hshared.mp hs).1).2, (ha.shown _ (hshared.mp hs').1).2]
    exact Text.bytes_lt_iff.mpr hlt

end Keys

/-- The part that the common members have in all members of two sets. -/
def share (a b : Finset String) : Float :=
  if a ∩ b = ∅ then 0 else Float.ofNat (a ∩ b).card / Float.ofNat (a ∪ b).card

theorem share_comm (a b : Finset String) : share a b = share b a := by
  rw [share, share, Finset.inter_comm, Finset.union_comm]

/-- What one method finds in common: nothing, or a score and the texts for it. -/
theorem overlap?_eq {texts texts' : List String} {a b : Keys} (ha : Keys.Of texts a)
    (hb : Keys.Of texts' b) :
    overlap? a b = if keySet texts ∩ keySet texts' = ∅ then none
      else some ⟨share (keySet texts) (keySet texts'), a.shared b⟩ := by
  have hlength := (ha.evidence hb).length
  have hunion : a.length + b.length - (a.shared b).length =
      (keySet texts ∪ keySet texts').card := by
    rw [ha.length, hb.length, hlength, Finset.card_union]
  unfold overlap?
  split
  · next hnone =>
    rw [hnone, List.length_nil, eq_comm, Finset.card_eq_zero] at hlength
    rw [if_pos hlength]
  · next shown hsome =>
    have hpos : keySet texts ∩ keySet texts' ≠ ∅ := by
      intro hnone
      rw [hnone, Finset.card_empty, List.length_eq_zero_iff] at hlength
      exact hsome hlength
    rw [if_neg hpos, similarity, hunion, hlength, share, if_neg hpos]

end Slipbox.Graph
