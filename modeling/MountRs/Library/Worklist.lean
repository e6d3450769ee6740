import MountRs.Library.BTreeMap
import Mathlib.Logic.Relation
import Mathlib.Algebra.BigOperators.Group.Finset.Basic

/-! # Worklist exploration of a finite graph

The loop pops a node from a stack, skips it when it was found before, and else
records it and pushes its successors. Its fuel bounds the number of pops: every
successor list is pushed at most once. -/

namespace Worklist

open Finset

variable {κ : Type*} [LinearOrder κ]

/-- Pop, skip what was found, record the rest and push its successors. The last
pushed successor is popped first. -/
def explore (succ : κ → List κ) : ℕ → List κ → BTreeSet κ → BTreeSet κ
  | 0, _, found => found
  | _ + 1, [], found => found
  | fuel + 1, node :: pending, found =>
    if node ∈ found then explore succ fuel pending found
    else explore succ fuel ((succ node).reverse ++ pending) (found.add node)

/-- `Reaches succ a b`: a path of successors leads from `a` to `b`. -/
def Reaches (succ : κ → List κ) : κ → κ → Prop :=
  Relation.ReflTransGen (fun a b => b ∈ succ a)

/-- The pushes that remain: the successor lists of the nodes not found yet. -/
def remaining (succ : κ → List κ) (nodes : Finset κ) (found : BTreeSet κ) : ℕ :=
  ∑ node ∈ nodes.filter (· ∉ found), (succ node).length

theorem remaining_add {succ : κ → List κ} {nodes : Finset κ} {found : BTreeSet κ} {node : κ}
    (hnodes : ∀ x, x ∉ nodes → succ x = []) (hnode : node ∉ found) :
    remaining succ nodes found = (succ node).length + remaining succ nodes (found.add node) := by
  unfold remaining
  by_cases hmem : node ∈ nodes
  · have hsplit : nodes.filter (· ∉ found) = insert node (nodes.filter (· ∉ found.add node)) := by
      ext x
      simp only [mem_filter, mem_insert, BTreeSet.mem_add, not_or]
      by_cases hx : x = node
      · subst hx
        simp [hmem, hnode]
      · simp [hx]
    rw [hsplit, sum_insert (by simp)]
  · have hsame : nodes.filter (· ∉ found) = nodes.filter (· ∉ found.add node) := by
      ext x
      simp only [mem_filter, BTreeSet.mem_add, not_or]
      constructor
      · rintro ⟨hx, hf⟩
        refine ⟨hx, ?_, hf⟩
        rintro rfl
        exact hmem hx
      · rintro ⟨hx, -, hf⟩
        exact ⟨hx, hf⟩
    rw [hsame, hnodes node hmem, List.length_nil, Nat.zero_add]

theorem found_subset_explore (succ : κ → List κ) (fuel : ℕ) (pending : List κ)
    (found : BTreeSet κ) : ∀ x ∈ found, x ∈ explore succ fuel pending found := by
  fun_induction explore succ fuel pending found with
  | case1 pending found => exact fun x hx => hx
  | case2 n found => exact fun x hx => hx
  | case3 fuel node pending found h ih => exact ih
  | case4 fuel node pending found h ih =>
    intro x hx
    exact ih x (BTreeSet.mem_add.mpr (.inr hx))

/-- Everything found was found before or is reachable from the stack. -/
theorem explore_sound (succ : κ → List κ) (fuel : ℕ) (pending : List κ) (found : BTreeSet κ) :
    ∀ x ∈ explore succ fuel pending found, x ∈ found ∨ ∃ start ∈ pending, Reaches succ start x := by
  fun_induction explore succ fuel pending found with
  | case1 pending found => exact fun x hx => .inl hx
  | case2 n found => exact fun x hx => .inl hx
  | case3 fuel node pending found h ih =>
    intro x hx
    refine (ih x hx).imp_right ?_
    rintro ⟨start, hstart, hreach⟩
    exact ⟨start, List.mem_cons_of_mem _ hstart, hreach⟩
  | case4 fuel node pending found h ih =>
    intro x hx
    rcases ih x hx with hx | ⟨start, hstart, hreach⟩
    · rcases BTreeSet.mem_add.mp hx with rfl | hx
      · exact .inr ⟨x, List.mem_cons_self, Relation.ReflTransGen.refl⟩
      · exact .inl hx
    · right
      rcases List.mem_append.mp hstart with hsucc | hstart
      · exact ⟨node, List.mem_cons_self,
          Relation.ReflTransGen.head (List.mem_reverse.mp hsucc) hreach⟩
      · exact ⟨start, List.mem_cons_of_mem _ hstart, hreach⟩

/-- With enough fuel the result holds the stack and is closed under successors,
provided the successors of every found node are found or still pending. -/
theorem explore_closed {succ : κ → List κ} {nodes : Finset κ}
    (hnodes : ∀ x, x ∉ nodes → succ x = []) (fuel : ℕ) (pending : List κ) (found : BTreeSet κ)
    (hfuel : pending.length + remaining succ nodes found ≤ fuel)
    (hclosed : ∀ x ∈ found, ∀ y ∈ succ x, y ∈ found ∨ y ∈ pending) :
    (∀ x ∈ pending, x ∈ explore succ fuel pending found) ∧
      ∀ x ∈ explore succ fuel pending found, ∀ y ∈ succ x, y ∈ explore succ fuel pending found := by
  fun_induction explore succ fuel pending found with
  | case1 pending found =>
    have hnil : pending = [] := List.length_eq_zero_iff.mp (by omega)
    subst hnil
    refine ⟨by simp, fun x hx y hy => ?_⟩
    simpa using hclosed x hx y hy
  | case2 n found =>
    refine ⟨by simp, fun x hx y hy => ?_⟩
    simpa using hclosed x hx y hy
  | case3 fuel node pending found h ih =>
    have hih := ih (by simp only [List.length_cons] at hfuel; omega) (by
      intro x hx y hy
      rcases hclosed x hx y hy with hy | hy
      · exact .inl hy
      · rcases List.mem_cons.mp hy with rfl | hy
        · exact .inl h
        · exact .inr hy)
    refine ⟨fun x hx => ?_, hih.2⟩
    rcases List.mem_cons.mp hx with rfl | hx
    · exact found_subset_explore succ fuel pending found x h
    · exact hih.1 x hx
  | case4 fuel node pending found h ih =>
    have hrem := remaining_add hnodes h
    have hih := ih (by
        simp only [List.length_cons, List.length_append, List.length_reverse] at hfuel ⊢
        omega) (by
      intro x hx y hy
      rcases BTreeSet.mem_add.mp hx with rfl | hx
      · exact .inr (List.mem_append_left _ (List.mem_reverse.mpr hy))
      · rcases hclosed x hx y hy with hy | hy
        · exact .inl (BTreeSet.mem_add.mpr (.inr hy))
        · rcases List.mem_cons.mp hy with rfl | hy
          · exact .inl (BTreeSet.mem_add.mpr (.inl rfl))
          · exact .inr (List.mem_append_right _ hy))
    refine ⟨fun x hx => ?_, hih.2⟩
    rcases List.mem_cons.mp hx with rfl | hx
    · exact found_subset_explore succ fuel _ _ x (BTreeSet.mem_add.mpr (.inl rfl))
    · exact hih.1 x (List.mem_append_right _ hx)

/-- Exploring from one node finds exactly what it reaches. -/
theorem mem_explore_iff {succ : κ → List κ} (nodes : Finset κ)
    (hnodes : ∀ x, x ∉ nodes → succ x = []) {fuel : ℕ} {root : κ}
    (hfuel : 1 + ∑ node ∈ nodes, (succ node).length ≤ fuel) (x : κ) :
    x ∈ explore succ fuel [root] ∅ ↔ Reaches succ root x := by
  have hrem : remaining succ nodes ∅ = ∑ node ∈ nodes, (succ node).length := by
    simp [remaining]
  have hclosed := explore_closed hnodes fuel [root] ∅ (by rw [hrem]; simpa using hfuel) (by simp)
  constructor
  · intro hx
    simpa using explore_sound succ fuel [root] ∅ x hx
  · intro hreach
    induction hreach with
    | refl => exact hclosed.1 root (by simp)
    | tail _ hstep ih => exact hclosed.2 _ ih _ hstep

/-! ## Trees

The same loop when a node that is found a second time is an error. It never is when every
node has one predecessor and the start has none. -/

def visit (succ : κ → List κ) : ℕ → List κ → BTreeSet κ → Option (BTreeSet κ)
  | 0, _, visited => some visited
  | _ + 1, [], visited => some visited
  | fuel + 1, node :: pending, visited =>
    if node ∈ visited then none
    else visit succ fuel ((succ node).reverse ++ pending) (visited.add node)

/-- How often a node is a successor of the nodes of a set. -/
def indegree (succ : κ → List κ) (nodes : Finset κ) (y : κ) : ℕ := ∑ x ∈ nodes, (succ x).count y

variable {succ : κ → List κ} {nodes : Finset κ} {root : κ}

/-- A node is visited or pending once for the start and once for each visited predecessor. -/
structure Visiting (succ : κ → List κ) (nodes : Finset κ) (root : κ) (pending : List κ)
    (visited : BTreeSet κ) : Prop where
  inside : ∀ x, x ∈ pending ∨ x ∈ visited → x ∈ nodes ∧ Reaches succ root x
  balance : ∀ y, pending.count y + (if y ∈ visited then 1 else 0) =
    (if y = root then 1 else 0) + indegree succ (nodes.filter (· ∈ visited)) y

theorem Visiting.fresh {node : κ} {pending : List κ} {visited : BTreeSet κ}
    (hdegree : ∀ y ∈ nodes, indegree succ nodes y = if y = root then 0 else 1)
    (h : Visiting succ nodes root (node :: pending) visited) : node ∉ visited := by
  intro hvisited
  have hbalance := h.balance node
  have hle : indegree succ (nodes.filter (· ∈ visited)) node ≤ indegree succ nodes node :=
    sum_le_sum_of_subset (filter_subset _ _)
  rw [hdegree node (h.inside node (Or.inr hvisited)).1] at hle
  rw [List.count_cons_self, if_pos hvisited] at hbalance
  split_ifs at hle hbalance <;> omega

variable (hclosed : ∀ x ∈ nodes, ∀ y ∈ succ x, y ∈ nodes)
include hclosed

theorem Visiting.step {node : κ} {pending : List κ} {visited : BTreeSet κ}
    (h : Visiting succ nodes root (node :: pending) visited) (hfresh : node ∉ visited) :
    Visiting succ nodes root ((succ node).reverse ++ pending) (visited.add node) := by
  obtain ⟨hnode, hreach⟩ := h.inside node (Or.inl List.mem_cons_self)
  refine ⟨?_, fun y => ?_⟩
  · intro x hx
    rw [List.mem_append, List.mem_reverse, BTreeSet.mem_add] at hx
    rcases hx with (hx | hx) | rfl | hx
    · exact ⟨hclosed node hnode x hx, hreach.tail hx⟩
    · exact h.inside x (Or.inl (List.mem_cons_of_mem _ hx))
    · exact ⟨hnode, hreach⟩
    · exact h.inside x (.inr hx)
  · have hsplit : nodes.filter (· ∈ visited.add node) =
        insert node (nodes.filter (· ∈ visited)) := by
      ext x
      simp only [mem_filter, mem_insert, BTreeSet.mem_add]
      constructor
      · rintro ⟨hx, rfl | hv⟩
        · exact .inl rfl
        · exact .inr ⟨hx, hv⟩
      · rintro (rfl | ⟨hx, hv⟩)
        · exact ⟨hnode, .inl rfl⟩
        · exact ⟨hx, .inr hv⟩
    have hbalance := h.balance y
    unfold indegree at hbalance ⊢
    rw [hsplit, sum_insert (by simp [hfresh]), List.count_append, List.count_reverse]
    rw [List.count_cons] at hbalance
    by_cases hy : y = node
    · subst hy
      simp only [hfresh, BTreeSet.mem_add, true_or, if_true, if_false, beq_self_eq_true] at hbalance ⊢
      omega
    · simp only [BTreeSet.mem_add, hy, false_or, beq_iff_eq, Ne.symm hy, if_false] at hbalance ⊢
      omega

/-- Visiting from the start meets exactly what it reaches, and nothing twice. -/
theorem visit_spec
    (hdegree : ∀ y ∈ nodes, indegree succ nodes y = if y = root then 0 else 1) {fuel : ℕ}
    {pending : List κ} {visited : BTreeSet κ} (h : Visiting succ nodes root pending visited)
    (hfuel : nodes.card < visited.size + fuel) :
    ∃ last, visit succ fuel pending visited = some last ∧ last.keys.toFinset ⊆ nodes ∧
      ∀ x, x ∈ last ↔ Reaches succ root x := by
  have hsubset : ∀ {pending visited}, Visiting succ nodes root pending visited →
      visited.keys.toFinset ⊆ nodes :=
    fun h x hx => (h.inside x (Or.inr (List.mem_toFinset.mp hx))).1
  fun_induction visit succ fuel pending visited with
  | case1 pending visited =>
    have hcard := card_le_card (hsubset h)
    rw [← BTreeMap.size_eq_card_keys] at hcard
    omega
  | case2 fuel visited =>
    refine ⟨visited, rfl, hsubset h, fun x => ⟨fun hx => (h.inside x (.inr hx)).2, ?_⟩⟩
    intro hreach
    induction hreach with
    | refl =>
      have := h.balance root
      by_contra hroot
      simp only [List.count_nil, hroot, if_false, if_true] at this
      omega
    | @tail a b _ hstep ih =>
      have hbalance := h.balance b
      have hle : (succ a).count b ≤ indegree succ (nodes.filter (· ∈ visited)) b :=
        single_le_sum (f := fun x => (succ x).count b) (fun _ _ => Nat.zero_le _)
          (mem_filter.mpr ⟨(h.inside a (.inr ih)).1, ih⟩)
      have hpos := List.count_pos_iff.mpr hstep
      by_contra hb
      simp only [List.count_nil, hb, if_false] at hbalance
      omega
  | case3 fuel node pending visited hvisited => exact absurd hvisited (h.fresh hdegree)
  | case4 fuel node pending visited hfresh ih =>
    refine ih (h.step hclosed hfresh) ?_
    have : (visited.add node).size = visited.size + 1 :=
      BTreeMap.size_insert (BTreeMap.get?_eq_none_iff.mpr hfresh) ()
    omega

end Worklist
