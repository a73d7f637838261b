import Mathlib.Data.List.Chain
import Mathlib.Data.List.Nodup
import Mathlib.Logic.Relation

/-!
# Simple paths

A simple path of a directed graph is the list of its vertices, which follow edges and do not
repeat. Paths grow at their end: `snoc` adds a vertex, and `prefix_of` and `edge` say what a longer
path tells about a shorter one. `exists_simplePath` says that simple paths reach what can be
reached.
-/

namespace Infra

variable {α : Type*} {r : α → α → Prop} {a b c x : α} {l m : List α}

/-- A list of vertices from `a` to `b` along edges, none of them twice. -/
structure SimplePath (r : α → α → Prop) (a b : α) (l : List α) : Prop where
  chain : l.IsChain r
  nodup : l.Nodup
  head : l.head? = some a
  last : l.getLast? = some b

namespace SimplePath

theorem single (a : α) : SimplePath r a a [a] :=
  ⟨.singleton a, List.nodup_singleton a, rfl, rfl⟩

theorem ne_nil (h : SimplePath r a b l) : l ≠ [] := by
  rintro rfl
  cases h.head

/-- A path grows by an edge to a new vertex. -/
theorem snoc (h : SimplePath r a b l) (hr : r b c) (hc : c ∉ l) : SimplePath r a c (l ++ [c]) where
  chain := by
    refine h.chain.append (.singleton c) fun x hx y hy => ?_
    obtain rfl := Option.some.inj (h.last.symm.trans hx)
    obtain rfl := Option.some.inj hy
    exact hr
  nodup := List.nodup_append.mpr ⟨h.nodup, List.nodup_singleton c, by
    rintro x hx y hy rfl
    exact hc (List.mem_singleton.mp hy ▸ hx)⟩
  head := by
    rw [List.head?_append, h.head]
    rfl
  last := List.getLast?_concat

/-- A prefix of a path is a path. -/
theorem prefix_of (h : SimplePath r a c (l ++ m)) (hb : l.getLast? = some b) :
    SimplePath r a b l where
  chain := h.chain.left_of_append
  nodup := (List.nodup_append.mp h.nodup).1
  head := by
    have hhead := h.head
    cases l with
    | nil => cases hb
    | cons y l => exact hhead
  last := hb

/-- Two vertices next to each other on a path are joined by an edge. -/
theorem edge (h : SimplePath r a c (l ++ x :: m)) (hb : l.getLast? = some b) : r b x :=
  (List.isChain_append.mp h.chain).2.2 b hb x rfl

theorem notMem_of_append (h : SimplePath r a c (l ++ x :: m)) : x ∉ l := fun hx =>
  (List.nodup_append.mp h.nodup).2.2 x hx x List.mem_cons_self rfl

/-- What holds at the start of a path and is kept along edges holds on the whole path. -/
theorem forall_mem {P : α → Prop} (hP : ∀ x y, P x → r x y → P y) : ∀ {l : List α} {a : α},
    SimplePath r a b l → P a → ∀ x ∈ l, P x := by
  intro l
  induction l with
  | nil => intro a h; exact absurd rfl h.ne_nil
  | cons y l ih =>
    intro a h ha
    obtain rfl := Option.some.inj h.head
    refine List.forall_mem_cons.mpr ⟨ha, fun x hx => ?_⟩
    cases l with
    | nil => cases hx
    | cons z l =>
      have htail : SimplePath r z b (z :: l) :=
        ⟨(List.isChain_cons_cons.mp h.chain).2, (List.nodup_cons.mp h.nodup).2, rfl, h.last⟩
      exact ih htail (hP y z ha (List.isChain_cons_cons.mp h.chain).1) x hx

/-- The only simple path from a vertex to itself has no edge. -/
theorem eq_single (h : SimplePath r a a l) : l = [a] := by
  cases l with
  | nil => exact absurd rfl h.ne_nil
  | cons y l =>
    obtain rfl := Option.some.inj h.head
    cases l with
    | nil => rfl
    | cons z l =>
      have hlast : (z :: l).getLast? = some y := h.last
      exact absurd (List.mem_of_getLast? hlast) (List.nodup_cons.mp h.nodup).1

end SimplePath

/-- **What can be reached, a simple path reaches.** -/
theorem exists_simplePath (h : Relation.ReflTransGen r a b) : ∃ l, SimplePath r a b l := by
  induction h with
  | refl => exact ⟨[a], .single a⟩
  | @tail b c _ hr ih =>
    obtain ⟨l, hl⟩ := ih
    by_cases hc : c ∈ l
    · -- the path has been there already, so it is cut off
      obtain ⟨l₁, l₂, rfl⟩ := List.append_of_mem hc
      rw [List.append_cons] at hl
      exact ⟨l₁ ++ [c], hl.prefix_of List.getLast?_concat⟩
    · exact ⟨l ++ [c], hl.snoc hr hc⟩

/-! ## Prefixes that grow -/

/-- Of the ways to extend a prefix of a list, one is a prefix again, unless it was the whole. -/
theorem countP_snoc_prefix [DecidableEq α] {targets : List α} (hn : targets.Nodup)
    (hm : ∀ t, (l ++ [t]) <+: m → t ∈ targets) :
    targets.countP (fun t => (l ++ [t]) <+: m) = if l <+: m ∧ l ≠ m then 1 else 0 := by
  split
  · next h =>
    obtain ⟨⟨rest, rfl⟩, hne⟩ := h
    cases rest with
    | nil => exact absurd (List.append_nil l).symm hne
    | cons x rest =>
      have hiff : ∀ t, (l ++ [t]) <+: (l ++ x :: rest) ↔ t = x := fun t => by
        rw [List.prefix_append_right_inj, List.cons_prefix_cons]
        exact and_iff_left List.nil_prefix
      simp only [hiff]
      exact List.count_eq_one_of_mem hn (hm x ((hiff x).mpr rfl))
  · next h =>
    refine List.countP_eq_zero.mpr fun t _ ht => h ?_
    obtain ⟨rest, rfl⟩ := of_decide_eq_true ht
    rw [List.append_assoc]
    exact ⟨List.prefix_append _ _, by simp⟩

end Infra
