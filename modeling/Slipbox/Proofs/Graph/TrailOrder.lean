import Mathlib.Data.List.Lex
import Slipbox.Proofs.Graph.Links
import Slipbox.Proofs.Text.Bytes

/-! Ties between the trails of a walk. Neighbours are tried in their order, so the trails at one
distance stand in the order of the nodes on them, and the trail to a node comes before every other
way to it that is as short. -/

namespace Slipbox.Graph

variable {α : Type}

/-- The nodes lead from the start to the goal, one neighbour after the other. -/
structure Way (next : α → List α) (start goal : α) (nodes : List α) : Prop where
  first : nodes.head? = some start
  last : nodes.getLast? = some goal
  steps : nodes.IsChain fun a b => b ∈ next a

/-- No other way from the start to the goal is shorter. -/
structure ShortestWay (next : α → List α) (start goal : α) (nodes : List α) : Prop
    extends Way next start goal nodes where
  shortest : ∀ others, Way next start goal others → nodes.length ≤ others.length

section Ways

variable {next : α → List α} {start a b : α} {nodes : List α} {n : Nat}

theorem way_single : Way next start b [a] ↔ a = start ∧ a = b := by
  constructor
  · intro h
    exact ⟨Option.some.inj h.first, Option.some.inj h.last⟩
  · rintro ⟨rfl, rfl⟩
    exact ⟨rfl, rfl, .singleton a⟩

/-- A way of more than one node leads to a neighbour of the node where it stood one step before. -/
theorem way_concat (hnodes : nodes ≠ []) :
    Way next start b (nodes ++ [b]) ↔ ∃ a, Way next start a nodes ∧ b ∈ next a := by
  obtain ⟨a, hlast⟩ := List.getLast?_isSome.mpr hnodes |> Option.isSome_iff_exists.mp
  have hhead : (nodes ++ [b]).head? = nodes.head? := List.head?_append_of_ne_nil nodes hnodes
  constructor
  · intro h
    obtain ⟨hsteps, _, hjoin⟩ := List.isChain_append.mp h.steps
    exact ⟨a, ⟨hhead ▸ h.first, hlast, hsteps⟩, hjoin a hlast b rfl⟩
  · rintro ⟨a', h, hstep⟩
    refine ⟨hhead.trans h.first, List.getLast?_concat, ?_⟩
    refine List.isChain_append.mpr ⟨h.steps, .singleton b, fun x hx y hy => ?_⟩
    cases h.last.symm.trans hx
    cases hy
    exact hstep

theorem Way.ne_nil (h : Way next start b nodes) : nodes ≠ [] := by
  rintro rfl
  cases h.first

/-- The nodes of a way, the last one apart. -/
theorem Way.exists_concat (h : Way next start b nodes) : ∃ before, nodes = before ++ [b] :=
  List.getLast?_eq_some_iff.mp h.last

theorem reaches_iff_way :
    Reaches next start n a ↔ ∃ nodes, Way next start a nodes ∧ nodes.length = n + 1 := by
  induction n generalizing a with
  | zero =>
      rw [reaches_zero]
      constructor
      · rintro rfl
        exact ⟨[a], way_single.mpr ⟨rfl, rfl⟩, rfl⟩
      · rintro ⟨nodes, hway, hlength⟩
        obtain ⟨b, rfl⟩ := List.length_eq_one_iff.mp hlength
        obtain ⟨rfl, rfl⟩ := way_single.mp hway
        rfl
  | succ n ih =>
      rw [reaches_succ]
      constructor
      · rintro ⟨b, hwalk, hstep⟩
        obtain ⟨nodes, hway, hlength⟩ := ih.mp hwalk
        exact ⟨nodes ++ [a], (way_concat hway.ne_nil).mpr ⟨b, hway, hstep⟩, by simp [hlength]⟩
      · rintro ⟨nodes, hway, hlength⟩
        obtain ⟨before, rfl⟩ := hway.exists_concat
        have hbefore : before.length = n + 1 := by simpa using hlength
        have hne : before ≠ [] := List.ne_nil_of_length_eq_add_one hbefore
        obtain ⟨b, hway, hstep⟩ := (way_concat hne).mp hway
        exact ⟨b, ih.mpr ⟨before, hway, hbefore⟩, hstep⟩

/-- The ways whose steps are as many as the distance are the shortest ones. -/
theorem shortestWay_iff (hdistance : IsDistance next start n a) :
    ShortestWay next start a nodes ↔ Way next start a nodes ∧ nodes.length = n + 1 := by
  obtain ⟨some, hsome, hlength⟩ := reaches_iff_way.mp hdistance.reaches
  have hlong (others : List α) (h : Way next start a others) : n + 1 ≤ others.length := by
    obtain ⟨before, rfl⟩ := h.exists_concat
    have hn : n ≤ before.length :=
      hdistance.least _ (reaches_iff_way.mpr ⟨_, h, by simp⟩)
    simpa using hn
  constructor
  · intro h
    exact ⟨h.toWay, Nat.le_antisymm (hlength ▸ h.shortest some hsome) (hlong nodes h.toWay)⟩
  · rintro ⟨hway, hlength⟩
    exact ⟨hway, fun others hothers => hlength ▸ hlong others hothers⟩

end Ways

theorem Trail.Leads.way {next : α → List α} {start : α} {t : Trail α} (h : t.Leads next start) :
    Way next start t.node t.nodes :=
  ⟨h.first, t.getLast?_nodes, h.steps⟩

section Order

variable [LinearOrder α]

/-- Of two lists of one length, what is put behind them does not matter. -/
theorem append_lt_append_of_length {l l' : List α} (hlength : l.length = l'.length) (h : l < l')
    (r r' : List α) : l ++ r < l' ++ r' := by
  induction l generalizing l' with
  | nil =>
      rw [List.eq_nil_of_length_eq_zero hlength.symm] at h
      exact absurd h (List.lt_irrefl _)
  | cons a l ih =>
      cases l' with
      | nil => cases hlength
      | cons a' l' =>
          rw [List.cons_append, List.cons_append, List.cons_lt_cons_iff]
          refine (List.cons_lt_cons_iff.mp h).imp_right fun ⟨hsame, hlt⟩ => ⟨hsame, ?_⟩
          exact ih (Nat.succ.inj hlength) hlt

theorem append_le_append_of_length {l l' : List α} (hlength : l.length = l'.length) (h : l ≤ l')
    (r : List α) : l ++ r ≤ l' ++ r := by
  rcases h.lt_or_eq with hlt | rfl
  · exact (append_lt_append_of_length hlength hlt r r).le
  · exact le_rfl

/-- By the number of steps, and then by the nodes. -/
def Trail.Before (t t' : Trail α) : Prop :=
  t.depth < t'.depth ∨ t.depth = t'.depth ∧ t.nodes < t'.nodes

namespace Walk

variable {next : α → List α} {start : α} {d : Nat} {seen : List α} {ts : List (Trail α)}

/-- The trails stand in order, and none is behind another way of its length to its end. -/
structure Canonical (next : α → List α) (start : α) (ts : List (Trail α)) : Prop where
  sorted : ts.Pairwise Trail.Before
  least : ∀ t ∈ ts, ∀ nodes, Way next start t.node nodes → nodes.length = t.nodes.length →
    t.nodes ≤ nodes

theorem Canonical.initial (next : α → List α) (start : α) :
    Canonical next start [⟨start, []⟩] where
  sorted := List.pairwise_singleton _ _
  least t ht nodes hway hlength := by
    rw [List.mem_singleton.mp ht] at hlength ⊢
    obtain ⟨b, rfl⟩ := List.length_eq_one_iff.mp hlength
    rw [(way_single.mp hway).1]
    exact le_rfl

/-- Trails of one depth are in the order of their nodes. -/
theorem nodes_lt_of_before {t t' : Trail α} (hdepth : t.depth = t'.depth) (h : t.Before t') :
    t.nodes < t'.nodes :=
  (h.resolve_left hdepth.not_lt).2

theorem before_extend {t t' : Trail α} (hdepth : t.depth = t'.depth) (h : t.Before t') (b b' : α) :
    (t.extend b).Before (t'.extend b') := by
  refine .inr ⟨congrArg (· + 1) hdepth, ?_⟩
  rw [Trail.nodes_extend, Trail.nodes_extend]
  refine append_lt_append_of_length ?_ (nodes_lt_of_before hdepth h) _ _
  rw [Trail.length_nodes, Trail.length_nodes, hdepth]

theorem before_siblings (t : Trail α) {b b' : α} (h : b < b') :
    (t.extend b).Before (t.extend b') := by
  refine .inr ⟨rfl, ?_⟩
  rw [Trail.nodes_extend, Trail.nodes_extend]
  exact List.append_left_lt (List.cons_lt_cons_iff.mpr (.inl h))

/-- From trails in order the next ones are found in order, if the neighbours are in order. -/
theorem discover_sorted (hnext : ∀ a, (next a).Pairwise (· < ·)) (hdepth : ∀ t ∈ ts, t.depth = d)
    (hsorted : ts.Pairwise Trail.Before) :
    (discover next seen ts).2.Pairwise Trail.Before := by
  induction ts generalizing seen with
  | nil => exact .nil
  | cons t ts ih =>
      obtain ⟨hfirst, hrest⟩ := List.pairwise_cons.mp hsorted
      have htail : ∀ t ∈ ts, t.depth = d := fun t ht => hdepth t (List.mem_cons_of_mem _ ht)
      simp only [discover]
      refine List.pairwise_append.mpr ⟨?_, ih htail hrest, ?_⟩
      · rw [List.pairwise_map]
        exact ((hnext t.node).filter _).imp fun hlt => before_siblings t hlt
      · intro t₁ ht₁ t₂ ht₂
        obtain ⟨b, _, rfl⟩ := List.mem_map.mp ht₁
        obtain ⟨t', ht', b', _, _, rfl⟩ := of_mem_discover ht₂
        refine before_extend ?_ (hfirst t' ht') b b'
        rw [hdepth t List.mem_cons_self, htail t' ht']

/-- A node is found from the first of the trails that have it as a neighbour of their end. -/
theorem nodes_le_of_mem_discover {t t' : Trail α} {b : α} (hdepth : ∀ t ∈ ts, t.depth = d)
    (hsorted : ts.Pairwise Trail.Before) (hfound : t.extend b ∈ (discover next seen ts).2)
    (ht' : t' ∈ ts) (hstep : b ∈ next t'.node) : t.nodes ≤ t'.nodes := by
  induction ts generalizing seen with
  | nil => cases ht'
  | cons t₀ ts ih =>
      obtain ⟨hfirst, hrest⟩ := List.pairwise_cons.mp hsorted
      have htail : ∀ t ∈ ts, t.depth = d := fun t ht => hdepth t (List.mem_cons_of_mem _ ht)
      have hle (t₁ : Trail α) (ht₁ : t₁ ∈ t₀ :: ts) : t₀.nodes ≤ t₁.nodes := by
        rcases List.mem_cons.mp ht₁ with rfl | ht₁
        · exact le_rfl
        · refine (nodes_lt_of_before ?_ (hfirst t₁ ht₁)).le
          rw [hdepth t₀ List.mem_cons_self, htail t₁ ht₁]
      simp only [discover, List.mem_append] at hfound
      rcases hfound with hfound | hfound
      · obtain ⟨b', _, hsame⟩ := List.mem_map.mp hfound
        have hback : t₀.node :: t₀.back = t.node :: t.back := congrArg Trail.back hsame
        have hnodes : t.nodes = t₀.nodes := congrArg List.reverse hback.symm
        rw [hnodes]
        exact hle t' ht'
      · obtain ⟨t₁, _, b', _, hfresh, hsame⟩ := of_mem_discover hfound
        obtain rfl : b = b' := congrArg Trail.node hsame
        rcases List.mem_cons.mp ht' with rfl | ht'
        · refine absurd ?_ hfresh
          by_cases hseen : b ∈ seen
          · exact List.mem_append_right _ hseen
          · exact List.mem_append_left _ (List.mem_filter.mpr ⟨hstep, by simpa using hseen⟩)
        · exact ih htail hrest hfound ht'

/-- One step further the trails are canonical again. -/
theorem Canonical.discover (h : Canonical next start ts) (hlayer : Layer next start d seen ts)
    (hnext : ∀ a, (next a).Pairwise (· < ·)) :
    Canonical next start (Walk.discover next seen ts).2 where
  sorted := discover_sorted hnext hlayer.depth h.sorted
  least t₁ ht₁ nodes hway hlength := by
    obtain ⟨t, ht, b, hstep, hfresh, rfl⟩ := of_mem_discover ht₁
    obtain ⟨before, rfl⟩ := hway.exists_concat
    change (before ++ [b]).length = _ at hlength
    have hbefore : before.length = t.nodes.length := by
      simpa [Trail.nodes_extend] using hlength
    have hlong : before.length = d + 1 := by
      rw [hbefore, Trail.length_nodes, hlayer.depth t ht]
    obtain ⟨a, hway, hstep'⟩ :=
      (way_concat (List.ne_nil_of_length_eq_add_one hlong)).mp hway
    -- the node before the last one is no nearer than the trails that are extended
    have hnear : IsDistance next start d a := by
      refine ⟨reaches_iff_way.mpr ⟨before, hway, hlong⟩, fun m hm => ?_⟩
      have hdistance := (hlayer.isDistance_succ b).mpr ⟨hfresh, t, ht, hstep⟩
      exact Nat.le_of_succ_le_succ (hdistance.least (m + 1) (.step hm hstep'))
    obtain ⟨t', ht', rfl⟩ := List.mem_map.mp ((hlayer.node_iff a).mpr hnear)
    rw [Trail.nodes_extend]
    refine append_le_append_of_length hbefore.symm ?_ [b]
    calc t.nodes ≤ t'.nodes := nodes_le_of_mem_discover hlayer.depth h.sorted ht₁ ht' hstep'
      _ ≤ before := by
        refine h.least t' ht' before hway ?_
        rw [hlong, Trail.length_nodes, hlayer.depth t' ht']

/-- From a canonical layer on, all trails of the walk are canonical. -/
theorem Canonical.layers (h : Canonical next start ts) (hlayer : Layer next start d seen ts)
    (hnext : ∀ a, (next a).Pairwise (· < ·)) (k : Nat) :
    Canonical next start (Walk.layers next k seen ts) := by
  induction k generalizing d seen ts with
  | zero => exact ⟨.nil, fun t ht => absurd ht List.not_mem_nil⟩
  | succ k ih =>
      have hnodup (a : α) : (next a).Nodup := (hnext a).imp ne_of_lt
      have hstep := hlayer.discover hnodup
      have hfound := h.discover hlayer hnext
      unfold Walk.layers
      split
      · exact ⟨.nil, fun t ht => absurd ht List.not_mem_nil⟩
      · next seen' found _ hdiscover =>
        rw [hdiscover] at hstep hfound
        have hrest := ih hfound hstep
        refine ⟨List.pairwise_append.mpr ⟨hfound.sorted, hrest.sorted, fun t ht t' ht' => ?_⟩, ?_⟩
        · obtain ⟨n, hlow, _, hn⟩ := ((hstep.layers hnodup k).node_iff t'.node).mp
            (List.mem_map_of_mem ht')
          refine .inl ?_
          rw [hstep.depth t ht, ((hstep.layers hnodup k).distance t' ht').unique hn]
          exact hlow
        · intro t ht
          rcases List.mem_append.mp ht with ht | ht
          · exact hfound.least t ht
          · exact hrest.least t ht

theorem trails_canonical (hnext : ∀ a, (next a).Pairwise (· < ·)) (start : α) (depth : Nat) :
    Canonical next start (trails next start depth) :=
  (Canonical.initial next start).layers (Layer.initial next start) hnext depth

end Walk

end Order

end Slipbox.Graph

namespace Slipbox

theorem Text.map_bytes_lt_iff {l l' : List String} :
    l.map Text.bytes < l'.map Text.bytes ↔ l < l' := by
  induction l generalizing l' with
  | nil =>
      cases l' <;> simp
  | cons s l ih =>
      cases l' with
      | nil => simp
      | cons s' l' =>
          have hsame : Text.bytes s = Text.bytes s' ↔ s = s' := by
            constructor
            · intro h
              rcases lt_trichotomy s s' with hlt | heq | hgt
              · exact absurd (h ▸ Text.bytes_lt_iff.mpr hlt) (List.lt_irrefl _)
              · exact heq
              · exact absurd (h ▸ Text.bytes_lt_iff.mpr hgt) (List.lt_irrefl _)
            · rintro rfl
              rfl
          rw [List.map_cons, List.map_cons, List.cons_lt_cons_iff, List.cons_lt_cons_iff,
            Text.bytes_lt_iff, hsame, ih]

/-- The trail of each visit is the first, by the bytes of the paths on it, of all shortest ways from
the start to the note, and the visits are in order of their depth and then of their trails. -/
theorem traverse_least_trails (notes : List Note) (start : String) (d : Graph.Direction)
    (depth : Nat) :
    let g := Graph.ofNotes notes
    (∀ v ∈ g.traverse start d depth,
      Graph.ShortestWay (g.neighbours d) start v.note.path v.trail ∧
      ∀ nodes, Graph.ShortestWay (g.neighbours d) start v.note.path nodes →
        v.trail.map Text.bytes ≤ nodes.map Text.bytes) ∧
    (g.traverse start d depth).Pairwise fun v w =>
      v.depth < w.depth ∨ v.depth = w.depth ∧ v.trail.map Text.bytes < w.trail.map Text.bytes := by
  intro g
  have h := Graph.trails_explored notes start d depth
  have hcanonical : Graph.Walk.Canonical (g.neighbours d) start (g.trails start d depth) := by
    unfold Graph.trails
    split
    · exact Graph.Walk.trails_canonical (Graph.neighbours_sorted g d) start depth
    · exact ⟨.nil, fun t ht => absurd ht List.not_mem_nil⟩
  constructor
  · intro v hv
    obtain ⟨t, ht, hnote, _, htrail⟩ := (Graph.mem_traverse notes).mp hv
    have hdistance := h.distance t ht
    rw [htrail, Graph.path_of_note? hnote]
    refine ⟨(Graph.shortestWay_iff hdistance).mpr ⟨(h.leads t ht).way, t.length_nodes⟩,
      fun nodes hnodes => ?_⟩
    obtain ⟨hway, hlength⟩ := (Graph.shortestWay_iff hdistance).mp hnodes
    have hle := hcanonical.least t ht nodes hway (hlength.trans t.length_nodes.symm)
    intro hlt
    exact absurd (Text.map_bytes_lt_iff.mp hlt) (not_lt.mpr hle)
  · rw [Graph.traverse, List.pairwise_filterMap]
    refine hcanonical.sorted.imp fun {t t'} hbefore v hv v' hv' => ?_
    obtain ⟨n, _, rfl⟩ := Option.map_eq_some_iff.mp hv
    obtain ⟨n', _, rfl⟩ := Option.map_eq_some_iff.mp hv'
    exact hbefore.imp_right (And.imp_right Text.map_bytes_lt_iff.mpr)

end Slipbox
