import Mathlib.Data.List.Chain
import Mathlib.Data.List.Nodup
import Mathlib.Data.Nat.Find
import Mathlib.Tactic.Tauto
import Slipbox.Graph.Walk

/-! A walk in layers finds the nodes within some distance of its start, each once and by a shortest
trail. `Layer` is what holds of the trails at one distance and of the nodes seen with them; looking
one step further keeps it, and the layers of a whole walk put together are what `Explored` says. -/

namespace Slipbox.Graph

variable {α : Type}

/-- Some walk of so many steps leads from the start to the node. -/
inductive Reaches (next : α → List α) (start : α) : Nat → α → Prop
  | start : Reaches next start 0 start
  | step {n : Nat} {a b : α} (hwalk : Reaches next start n a) (hstep : b ∈ next a) :
      Reaches next start (n + 1) b

/-- The shortest walks from the start to the node have so many steps. -/
structure IsDistance (next : α → List α) (start : α) (n : Nat) (a : α) : Prop where
  reaches : Reaches next start n a
  least : ∀ m, Reaches next start m a → n ≤ m

section Distance

variable {next : α → List α} {start a b : α} {n m : Nat}

theorem reaches_zero : Reaches next start 0 a ↔ a = start := by
  constructor
  · intro h
    cases h
    rfl
  · rintro rfl
    exact .start

theorem reaches_succ : Reaches next start (n + 1) b ↔ ∃ a, Reaches next start n a ∧ b ∈ next a := by
  constructor
  · rintro (_ | ⟨hwalk, hstep⟩)
    exact ⟨_, hwalk, hstep⟩
  · rintro ⟨a, hwalk, hstep⟩
    exact .step hwalk hstep

/-- A node that can be reached has a distance. -/
theorem Reaches.exists_distance (h : Reaches next start n a) :
    ∃ m ≤ n, IsDistance next start m a := by
  classical
  have hsome : ∃ m, Reaches next start m a := ⟨n, h⟩
  exact ⟨Nat.find hsome, Nat.find_min' hsome h, Nat.find_spec hsome,
    fun m hm => Nat.find_min' hsome hm⟩

theorem IsDistance.unique (h : IsDistance next start n a) (h' : IsDistance next start m a) :
    n = m :=
  Nat.le_antisymm (h.least m h'.reaches) (h'.least n h.reaches)

theorem isDistance_zero : IsDistance next start 0 a ↔ a = start := by
  constructor
  · exact fun h => reaches_zero.mp h.reaches
  · rintro rfl
    exact ⟨.start, fun m _ => Nat.zero_le m⟩

theorem IsDistance.ne_start (h : IsDistance next start n a) (hn : 1 ≤ n) : a ≠ start := by
  rintro rfl
  have := h.least 0 .start
  omega

/-- The last node but one of a shortest walk is one step nearer. -/
theorem IsDistance.exists_prev (h : IsDistance next start (n + 1) b) :
    ∃ a, IsDistance next start n a ∧ b ∈ next a := by
  obtain ⟨a, hwalk, hstep⟩ := reaches_succ.mp h.reaches
  refine ⟨a, ⟨hwalk, fun m hm => ?_⟩, hstep⟩
  have := h.least (m + 1) (.step hm hstep)
  omega

/-- Distances leave no gap: where one is empty, all larger ones are. -/
theorem not_isDistance_of_le (hempty : ∀ a, ¬ IsDistance next start n a) (hle : n ≤ m) :
    ¬ IsDistance next start m a := by
  induction m, hle using Nat.le_induction generalizing a with
  | base => exact hempty a
  | succ m _ ih =>
      intro h
      obtain ⟨a', hprev, _⟩ := h.exists_prev
      exact ih hprev

end Distance

namespace Trail

theorem nodes_extend (t : Trail α) (b : α) : (t.extend b).nodes = t.nodes ++ [b] := by
  simp [nodes, extend]

theorem depth_extend (t : Trail α) (b : α) : (t.extend b).depth = t.depth + 1 := rfl

theorem getLast?_nodes (t : Trail α) : t.nodes.getLast? = some t.node := by
  simp [nodes]

theorem length_nodes (t : Trail α) : t.nodes.length = t.depth + 1 := by
  simp [nodes, depth]

/-- The trail leads from the start to its node, one neighbour after the other and through no node
twice. -/
structure Leads (next : α → List α) (start : α) (t : Trail α) : Prop where
  first : t.nodes.head? = some start
  steps : t.nodes.IsChain fun a b => b ∈ next a
  nodup : t.nodes.Nodup

theorem Leads.extend {next : α → List α} {start b : α} {t : Trail α} (h : t.Leads next start)
    (hstep : b ∈ next t.node) (hfresh : b ∉ t.nodes) : (t.extend b).Leads next start where
  first := by
    rw [nodes_extend, List.head?_append, h.first]
    rfl
  steps := by
    rw [nodes_extend, List.isChain_append]
    refine ⟨h.steps, .singleton b, fun x hx y hy => ?_⟩
    rw [getLast?_nodes] at hx
    cases hx
    cases hy
    exact hstep
  nodup := by
    rw [nodes_extend, List.nodup_append]
    refine ⟨h.nodup, List.nodup_singleton b, fun x hx y hy => ?_⟩
    rintro rfl
    rw [List.mem_singleton] at hy
    exact hfresh (hy ▸ hx)

end Trail

namespace Walk

variable {next : α → List α} {start : α} {d : Nat} {seen : List α} {ts : List (Trail α)}

/-- The trails lead to the nodes at distance `d`, and all nodes up to there have been seen. -/
structure Layer (next : α → List α) (start : α) (d : Nat) (seen : List α)
    (ts : List (Trail α)) : Prop where
  seen_iff : ∀ a, a ∈ seen ↔ ∃ n ≤ d, IsDistance next start n a
  node_iff : ∀ a, a ∈ ts.map Trail.node ↔ IsDistance next start d a
  nodup : (ts.map Trail.node).Nodup
  depth : ∀ t ∈ ts, t.depth = d
  leads : ∀ t ∈ ts, t.Leads next start
  within : ∀ t ∈ ts, t.nodes ⊆ seen

theorem Layer.initial (next : α → List α) (start : α) :
    Layer next start 0 [start] [⟨start, []⟩] where
  seen_iff a := by
    simp only [List.mem_singleton, Nat.le_zero, exists_eq_left]
    exact isDistance_zero.symm
  node_iff a := by
    rw [isDistance_zero]
    exact List.mem_singleton
  nodup := List.nodup_singleton start
  depth t ht := by
    rw [List.mem_singleton.mp ht]
    rfl
  leads t ht := by
    rw [List.mem_singleton.mp ht]
    exact ⟨rfl, .singleton start, List.nodup_singleton start⟩
  within t ht := by
    rw [List.mem_singleton.mp ht]
    exact fun a ha => ha

/-- A node not seen before is at the next distance just when it is a neighbour of this layer. -/
theorem Layer.isDistance_succ (h : Layer next start d seen ts) (b : α) :
    IsDistance next start (d + 1) b ↔ b ∉ seen ∧ ∃ t ∈ ts, b ∈ next t.node := by
  constructor
  · intro hb
    refine ⟨fun hseen => ?_, ?_⟩
    · obtain ⟨n, hn, hb'⟩ := (h.seen_iff b).mp hseen
      have := hb.unique hb'
      omega
    · obtain ⟨a, ha, hstep⟩ := hb.exists_prev
      obtain ⟨t, ht, rfl⟩ := List.mem_map.mp ((h.node_iff a).mpr ha)
      exact ⟨t, ht, hstep⟩
  · rintro ⟨hfresh, t, ht, hstep⟩
    have ha := (h.node_iff t.node).mp (List.mem_map_of_mem ht)
    refine ⟨.step ha.reaches hstep, fun m hm => ?_⟩
    obtain ⟨n, hn, hb⟩ := hm.exists_distance
    by_contra hlt
    exact hfresh ((h.seen_iff b).mpr ⟨n, by omega, hb⟩)

/-- The trails lead to the nodes whose distance is more than `low` and at most `high`, to each of
them once, by a shortest way, and to the nearer ones first. -/
structure Explored (next : α → List α) (start : α) (low high : Nat) (ts : List (Trail α)) :
    Prop where
  node_iff : ∀ a, a ∈ ts.map Trail.node ↔ ∃ n, low < n ∧ n ≤ high ∧ IsDistance next start n a
  nodup : (ts.map Trail.node).Nodup
  distance : ∀ t ∈ ts, IsDistance next start t.depth t.node
  leads : ∀ t ∈ ts, t.Leads next start
  sorted : ts.Pairwise fun t t' => t.depth ≤ t'.depth

theorem Explored.nil {low high : Nat}
    (h : ∀ n, low < n → n ≤ high → ∀ a, ¬ IsDistance next start n a) :
    Explored next start low high [] where
  node_iff a := by
    rw [List.map_nil]
    constructor
    · exact fun ha => absurd ha List.not_mem_nil
    · rintro ⟨n, hlow, hhigh, ha⟩
      exact absurd ha (h n hlow hhigh a)
  nodup := .nil
  distance _ ht := absurd ht List.not_mem_nil
  leads _ ht := absurd ht List.not_mem_nil
  sorted := .nil

/-- A layer stands in front of all that lie behind it. -/
theorem Explored.cons {high : Nat} {rest : List (Trail α)}
    (h : Layer next start (d + 1) seen ts) (hd : d + 1 ≤ high)
    (hrest : Explored next start (d + 1) high rest) : Explored next start d high (ts ++ rest) where
  node_iff a := by
    rw [List.map_append, List.mem_append, h.node_iff, hrest.node_iff]
    constructor
    · rintro (ha | ⟨n, hlow, hhigh, ha⟩)
      · exact ⟨d + 1, Nat.lt_succ_self d, hd, ha⟩
      · exact ⟨n, by omega, hhigh, ha⟩
    · rintro ⟨n, hlow, hhigh, ha⟩
      rcases Nat.eq_or_lt_of_le (Nat.succ_le_of_lt hlow) with rfl | hlow
      · exact Or.inl ha
      · exact Or.inr ⟨n, hlow, hhigh, ha⟩
  nodup := by
    rw [List.map_append, List.nodup_append]
    refine ⟨h.nodup, hrest.nodup, fun a ha b hb => ?_⟩
    rintro rfl
    obtain ⟨n, hlow, _, hn⟩ := (hrest.node_iff a).mp hb
    have := hn.unique ((h.node_iff a).mp ha)
    omega
  distance t ht := by
    rcases List.mem_append.mp ht with ht | ht
    · rw [h.depth t ht, ← h.node_iff]
      exact List.mem_map_of_mem ht
    · exact hrest.distance t ht
  leads t ht := by
    rcases List.mem_append.mp ht with ht | ht
    · exact h.leads t ht
    · exact hrest.leads t ht
  sorted := by
    rw [List.pairwise_append]
    refine ⟨List.pairwise_of_forall_mem_list fun t ht t' ht' => ?_, hrest.sorted,
      fun t ht t' ht' => ?_⟩
    · rw [h.depth t ht, h.depth t' ht']
    · obtain ⟨n, hlow, _, hn⟩ := (hrest.node_iff t'.node).mp (List.mem_map_of_mem ht')
      rw [h.depth t ht, (hrest.distance t' ht').unique hn]
      exact Nat.le_of_lt hlow

variable [DecidableEq α]

theorem mem_discover_seen {a : α} :
    a ∈ (discover next seen ts).1 ↔ a ∈ seen ∨ ∃ t ∈ ts, a ∈ next t.node := by
  induction ts generalizing seen with
  | nil => simp [discover]
  | cons t ts ih =>
      simp only [discover, ih, List.mem_append, List.mem_filter, decide_eq_true_eq,
        List.exists_mem_cons_iff]
      tauto

/-- Every trail that is found goes one step further to a node not seen before. -/
theorem of_mem_discover {t' : Trail α} (h : t' ∈ (discover next seen ts).2) :
    ∃ t ∈ ts, ∃ b, b ∈ next t.node ∧ b ∉ seen ∧ t' = t.extend b := by
  induction ts generalizing seen with
  | nil => cases h
  | cons t ts ih =>
      simp only [discover, List.mem_append, List.mem_map, List.mem_filter,
        decide_eq_true_eq] at h
      rcases h with ⟨b, ⟨hstep, hfresh⟩, rfl⟩ | h
      · exact ⟨t, List.mem_cons_self, b, hstep, hfresh, rfl⟩
      · obtain ⟨t₁, ht₁, b, hstep, hfresh, rfl⟩ := ih h
        refine ⟨t₁, List.mem_cons_of_mem _ ht₁, b, hstep, fun hb => hfresh ?_, rfl⟩
        exact List.mem_append_right _ hb

theorem mem_discover_nodes {b : α} :
    b ∈ (discover next seen ts).2.map Trail.node ↔ b ∉ seen ∧ ∃ t ∈ ts, b ∈ next t.node := by
  induction ts generalizing seen with
  | nil => simp [discover]
  | cons t ts ih =>
      have hfirst : ((next t.node).filter (· ∉ seen)).map (Trail.node ∘ t.extend) =
          (next t.node).filter (· ∉ seen) := List.map_id _
      simp only [discover, List.map_append, List.map_map, hfirst, List.mem_append, ih,
        List.mem_filter, decide_eq_true_eq, List.exists_mem_cons_iff]
      tauto

theorem discover_nodup (hnext : ∀ a, (next a).Nodup) :
    ((discover next seen ts).2.map Trail.node).Nodup := by
  induction ts generalizing seen with
  | nil => exact .nil
  | cons t ts ih =>
      have hfirst : ((next t.node).filter (· ∉ seen)).map (Trail.node ∘ t.extend) =
          (next t.node).filter (· ∉ seen) := List.map_id _
      simp only [discover, List.map_append, List.map_map, hfirst, List.nodup_append]
      refine ⟨(hnext t.node).filter _, ih, fun a ha b hb => ?_⟩
      rintro rfl
      exact (mem_discover_nodes.mp hb).1 (List.mem_append_left _ ha)

/-- One step further lies the next layer. -/
theorem Layer.discover (h : Layer next start d seen ts) (hnext : ∀ a, (next a).Nodup) :
    Layer next start (d + 1) (Walk.discover next seen ts).1 (Walk.discover next seen ts).2 where
  seen_iff a := by
    have hsplit : (∃ n ≤ d + 1, IsDistance next start n a) ↔
        (∃ n ≤ d, IsDistance next start n a) ∨ IsDistance next start (d + 1) a := by
      constructor
      · rintro ⟨n, hn, ha⟩
        rcases Nat.le_succ_iff.mp hn with hn | rfl
        · exact Or.inl ⟨n, hn, ha⟩
        · exact Or.inr ha
      · rintro (⟨n, hn, ha⟩ | ha)
        · exact ⟨n, Nat.le_succ_of_le hn, ha⟩
        · exact ⟨d + 1, Nat.le_refl _, ha⟩
    rw [mem_discover_seen, hsplit, ← h.seen_iff, h.isDistance_succ]
    tauto
  node_iff a := by rw [mem_discover_nodes, h.isDistance_succ]
  nodup := discover_nodup hnext
  depth t' ht' := by
    obtain ⟨t, ht, b, _, _, rfl⟩ := of_mem_discover ht'
    rw [Trail.depth_extend, h.depth t ht]
  leads t' ht' := by
    obtain ⟨t, ht, b, hstep, hfresh, rfl⟩ := of_mem_discover ht'
    exact (h.leads t ht).extend hstep fun hb => hfresh (h.within t ht hb)
  within t' ht' := by
    obtain ⟨t, ht, b, hstep, _, rfl⟩ := of_mem_discover ht'
    intro a ha
    rw [Trail.nodes_extend, List.mem_append, List.mem_singleton] at ha
    rw [mem_discover_seen]
    rcases ha with ha | rfl
    · exact Or.inl (h.within t ht ha)
    · exact Or.inr ⟨t, ht, hstep⟩

/-- From a layer on, the walk finds what lies within its further steps. -/
theorem Layer.layers (h : Layer next start d seen ts) (hnext : ∀ a, (next a).Nodup) (k : Nat) :
    Explored next start d (d + k) (Walk.layers next k seen ts) := by
  induction k generalizing d seen ts with
  | zero => exact .nil fun n hlow hhigh => by omega
  | succ k ih =>
      have hstep := h.discover hnext
      unfold Walk.layers
      split
      · next found hfound =>
        rw [hfound] at hstep
        refine .nil fun n hlow _ a => not_isDistance_of_le (n := d + 1) (fun b hb => ?_) hlow
        exact absurd ((hstep.node_iff b).mpr hb) List.not_mem_nil
      · next seen' found hne hfound =>
        rw [hfound] at hstep
        have hrest := ih hstep
        rw [Nat.add_right_comm d 1 k] at hrest
        exact .cons hstep (by omega) hrest

theorem trails_explored (hnext : ∀ a, (next a).Nodup) (start : α) (depth : Nat) :
    Explored next start 0 depth (trails next start depth) := by
  have h := (Layer.initial next start).layers hnext depth
  rwa [Nat.zero_add] at h

end Walk

end Slipbox.Graph
