import Mathlib.Data.List.Basic
import Mathlib.Logic.Function.Basic

/-!
# Lists threaded through a pool

Nodes `ι` of a pool carry link fields of a raw type `ρ`; `enc` says how a link to a node, or to
no node, is written down. `Chain` is a singly linked list of pool nodes, `Linked` a doubly linked
one. Both are stated over all splits of the list, so that the rules for taking a node out
(`Linked.unlink`) and for putting one in front (`Linked.push`) treat both ends and the middle
alike.

Main results:

* `Linked.unlink` — the neighbours of a node linked to each other are the list without the node.
* `Linked.push` — a node linked in front of the list is the list with the node.

Deliberate scope limits:

* A pool has no size here; that the links stay within it is for the program to say.
-/

namespace LinkedPool

variable {ι ρ : Type*} (enc : Option ι → ρ)

/-- The nodes `l` are linked by `next` in this order, and the last one links to nothing. -/
def Chain (next : ι → ρ) (l : List ι) : Prop :=
  ∀ a i b, l = a ++ i :: b → next i = enc b.head?

/-- The nodes `l` are linked by `next` in this order and by `prev` in the opposite one. -/
def Linked (next prev : ι → ρ) (l : List ι) : Prop :=
  ∀ a i b, l = a ++ i :: b → next i = enc b.head? ∧ prev i = enc a.getLast?

/-- A link field written at a node, if there is one. -/
def writeAt [DecidableEq ι] (f : ι → ρ) (o : Option ι) (v : ρ) : ι → ρ :=
  match o with
  | none => f
  | some i => Function.update f i v

section Write

variable [DecidableEq ι] {f : ι → ρ} {v : ρ}

@[simp] theorem writeAt_none : writeAt f none v = f := rfl

@[simp] theorem writeAt_some (i : ι) : writeAt f (some i) v = Function.update f i v := rfl

/-- A write changes the field of its own node only. -/
theorem writeAt_of_ne {o : Option ι} {i : ι} (h : ∀ j, o = some j → i ≠ j) :
    writeAt f o v i = f i := by
  cases o with
  | none => rfl
  | some j => exact Function.update_of_ne (h j rfl) v f

end Write

variable {enc}
variable {next prev next' prev' : ι → ρ} {l : List ι}

/-! ## Chains -/

/-- A chain is a link and a chain. -/
theorem chain_cons {i : ι} :
    Chain enc next (i :: l) ↔ next i = enc l.head? ∧ Chain enc next l := by
  constructor
  · intro h
    refine ⟨h [] i l rfl, ?_⟩
    intro a j b hl
    exact h (i :: a) j b (by rw [hl]; rfl)
  · rintro ⟨hi, hl⟩ a j b h
    cases a with
    | nil =>
      rw [List.nil_append, List.cons.injEq] at h
      rcases h with ⟨rfl, rfl⟩
      exact hi
    | cons x a =>
      rw [List.cons_append, List.cons.injEq] at h
      exact hl a j b h.2

/-- A chain only depends on the links of its nodes. -/
theorem Chain.congr (h : Chain enc next l) (heq : ∀ i ∈ l, next' i = next i) :
    Chain enc next' l := by
  intro a i b hl
  rw [heq i (by rw [hl]; simp)]
  exact h a i b hl

/-! ## Doubly linked lists -/

/-- No node, no links. -/
theorem linked_nil : Linked enc next prev ([] : List ι) := by
  intro a i b h
  simp at h

/-- A doubly linked list is a chain in its forward links. -/
theorem Linked.chain (h : Linked enc next prev l) : Chain enc next l := by
  intro a i b hl
  exact (h a i b hl).1

/-- A linked list only depends on the links of its nodes. -/
theorem Linked.congr (h : Linked enc next prev l) (hn : ∀ i ∈ l, next' i = next i)
    (hp : ∀ i ∈ l, prev' i = prev i) : Linked enc next' prev' l := by
  intro a i b hl
  have hi : i ∈ l := by rw [hl]; simp
  rw [hn i hi, hp i hi]
  exact h a i b hl

/-- Within the list, `prev` is the inverse of `next`. -/
theorem Linked.inverse (h : Linked enc next prev l) (henc : Function.Injective enc) {i j : ι}
    (hi : i ∈ l) (hj : j ∈ l) : next i = enc (some j) ↔ prev j = enc (some i) := by
  constructor
  · intro hnext
    rcases List.append_of_mem hi with ⟨a, b, rfl⟩
    rw [(h a i b rfl).1] at hnext
    cases b with
    | nil => cases henc hnext
    | cons x b =>
      have hx : x = j := Option.some.inj (henc hnext)
      have hlink := (h (a ++ [i]) x b (by simp)).2
      rw [hx] at hlink
      simpa using hlink
  · intro hprev
    rcases List.append_of_mem hj with ⟨a, b, rfl⟩
    rw [(h a j b rfl).2] at hprev
    rcases List.eq_nil_or_concat a with rfl | ⟨a, x, rfl⟩
    · cases henc hprev
    · have hx : x = i := by
        have hlast := henc hprev
        simpa using hlast
      have hlink := (h a x (j :: b) (by simp)).1
      rw [hx] at hlink
      exact hlink

/-- A later node is not the first one. -/
theorem ne_first {x j : ι} {m b : List ι} (hnd : ((x :: m) ++ j :: b).Nodup) : j ≠ x := by
  rintro rfl
  rw [List.cons_append, List.nodup_cons] at hnd
  exact hnd.1 (by simp)

section Surgery

variable [DecidableEq ι]

/-- A node is taken out by linking its neighbours with each other. -/
theorem Linked.unlink {a b : List ι} {i : ι} (h : Linked enc next prev (a ++ i :: b))
    (hnd : (a ++ i :: b).Nodup) :
    Linked enc (writeAt next a.getLast? (enc b.head?)) (writeAt prev b.head? (enc a.getLast?))
      (a ++ b) := by
  have hnd' := List.nodup_append.mp hnd
  have hdisj : ∀ x ∈ a, ∀ y ∈ b, x ≠ y := fun x hx y hy =>
    hnd'.2.2 x hx y (List.mem_cons_of_mem i hy)
  -- a node of the new list lies in `b`, is the first of `b`, or lies in `a`
  intro a' j b' hsplit
  rcases List.append_eq_append_iff.mp hsplit with ⟨m, ha', hb⟩ | ⟨m, ha, hb'⟩
  · -- `j` lies in `b`, with `m` before it
    have hjb : j ∈ b := by rw [hb]; simp
    have hold := h (a ++ i :: m) j b' (by rw [hb]; simp)
    constructor
    · rw [writeAt_of_ne]
      · exact hold.1
      · intro x hx
        exact (hdisj x (List.mem_of_getLast? hx) j hjb).symm
    · cases m with
      | nil =>
        rw [List.nil_append] at hb
        rw [ha', hb]
        simp
      | cons y m =>
        rw [writeAt_of_ne]
        · rw [hold.2, ha']
          congr 1
          simp [List.getLast?_append, List.getLast?_cons]
        · intro x hx hjx
          rw [hb] at hx
          simp only [List.cons_append, List.head?_cons, Option.some.injEq] at hx
          have hb_nd : b.Nodup := (List.nodup_cons.mp hnd'.2.1).2
          rw [hb] at hb_nd
          exact ne_first hb_nd (hjx.trans hx.symm)
  · cases m with
    | nil =>
      -- `j` is the first node of `b`
      rw [List.nil_append] at hb'
      rw [List.append_nil] at ha
      have hold := h (a ++ [i]) j b' (by rw [← hb']; simp)
      have hjb : j ∈ b := by rw [← hb']; simp
      constructor
      · rw [writeAt_of_ne]
        · exact hold.1
        · intro x hx
          exact (hdisj x (List.mem_of_getLast? hx) j hjb).symm
      · rw [← hb', ha]
        simp
    | cons y m =>
      -- `j` lies in `a`, with `m` behind it
      rw [List.cons_append, List.cons.injEq] at hb'
      rcases hb' with ⟨hy, hb'⟩
      subst hy
      have hja : j ∈ a := by rw [ha]; simp
      have hold := h a' j (m ++ i :: b) (by rw [ha]; simp)
      constructor
      · cases m with
        | nil =>
          rw [ha, hb']
          simp
        | cons z m =>
          rw [writeAt_of_ne]
          · rw [hold.1, hb']
            simp
          · intro x hx hjx
            rw [ha] at hx
            have ha_nd : a.Nodup := hnd'.1
            rw [ha, List.nodup_append] at ha_nd
            have hzx : (z :: m).getLast? = some x := by
              rw [← hx]
              simp [List.getLast?_append, List.getLast?_cons]
            have hmem : x ∈ z :: m := List.mem_of_getLast? hzx
            rw [← hjx] at hmem
            exact (List.nodup_cons.mp ha_nd.2.1).1 hmem
      · rw [writeAt_of_ne]
        · exact hold.2
        · intro x hx
          exact hdisj j hja x (List.mem_of_head? hx)

/-- A node is put in front by linking it and the old first node with each other. -/
theorem Linked.push {i : ι} (h : Linked enc next prev l) (hnd : (i :: l).Nodup) :
    Linked enc (Function.update next i (enc l.head?))
      (writeAt (Function.update prev i (enc none)) l.head? (enc (some i))) (i :: l) := by
  rcases List.nodup_cons.mp hnd with ⟨hi, hl_nd⟩
  intro a j b hsplit
  cases a with
  | nil =>
    rw [List.nil_append, List.cons.injEq] at hsplit
    rcases hsplit with ⟨rfl, rfl⟩
    constructor
    · simp
    · rw [writeAt_of_ne]
      · simp
      · intro x hx hix
        exact hi (hix ▸ List.mem_of_head? hx)
  | cons x a =>
    rw [List.cons_append, List.cons.injEq] at hsplit
    rcases hsplit with ⟨rfl, hsplit⟩
    have hjl : j ∈ l := by rw [hsplit]; simp
    have hji : j ≠ i := fun heq => hi (heq ▸ hjl)
    have hold := h a j b hsplit
    constructor
    · rw [Function.update_of_ne hji]
      exact hold.1
    · cases a with
      | nil => rw [hsplit]; simp
      | cons y a =>
        rw [writeAt_of_ne]
        · rw [Function.update_of_ne hji, hold.2]
          simp [List.getLast?_cons]
        · intro x hx hjx
          rw [hsplit] at hx hl_nd
          simp only [List.cons_append, List.head?_cons, Option.some.injEq] at hx
          exact ne_first hl_nd (hjx.trans hx.symm)

end Surgery

end LinkedPool
