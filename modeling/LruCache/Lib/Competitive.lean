import LruCache.Lib.Recency
import LruCache.Lib.Transition
import Mathlib.Data.Finset.Card
import Mathlib.Data.List.Count

/-!
# Recency lists against any other strategy

Clients that load what is missing: a key that is not there is put once it has been loaded. The
recency list has to decide which pair to drop without knowing the requests to come. Compared with
a strategy that knows them all, has less room, and may fetch and drop whatever it likes, it misses
at most `cap / (cap - h + 1)` times as often, up to what it takes to fill it (`misses_le`).

The proof pays for a miss out of a potential: a key of the list that the other strategy has
dropped counts for the more, the later it will leave the list.

Main results:

* `misses_le` — for every sequence of requests and every strategy that holds the requested key
  after each of them.

Deliberate scope limits:

* A strategy may fetch and drop anything at any time, but holds the requested key after each
  request: one that answers requests without keeping the key can be better than the bound
  (`Feasible`).
-/

namespace Recency

open Transition

variable {κ ν : Type*} [DecidableEq κ]

/-! ## Reading through the cache -/

/-- A lookup of `k`, and a `put` of what is loaded if it misses. -/
def State.read (load : κ → ν) (k : κ) (s : State κ ν) : ν × State κ ν :=
  match s.get k with
  | (some v, s) => (v, s)
  | (none, s) => (load k, s.put k (load k))

/-! ## The other strategy -/

/-- The number of keys that a strategy fetches: after each request it has the keys of a set. -/
def fetches : Finset κ → List (κ × Finset κ) → ℕ
  | _, [] => 0
  | S, (_, T) :: schedule => (T \ S).card + fetches T schedule

/-- After each request it holds the key that was asked for, and it has room for no more than `h`
keys. A strategy that answers a request without keeping the key is not one of these. -/
def Feasible (h : ℕ) (schedule : List (κ × Finset κ)) : Prop :=
  ∀ p ∈ schedule, p.1 ∈ p.2 ∧ p.2.card ≤ h

/-! ## The potential -/

/-- The keys of the list outside of `S`, the first one weighted with `w`, the next with `w - 1`,
and so on. -/
def weight (S : Finset κ) : ℕ → List κ → ℕ
  | _, [] => 0
  | w, k :: l => (if k ∈ S then 0 else w) + weight S (w - 1) l

section Weight

variable {S T : Finset κ} {k : κ} {l : List κ} {w h : ℕ}

/-- A key that both have weighs nothing, but the keys behind it weigh less. -/
theorem weight_cons_of_mem (hk : k ∈ S) : weight S w (k :: l) = weight S (w - 1) l := by
  rw [weight, if_pos hk, Nat.zero_add]

/-- If all weights fall by one, so does what each key outside of `S` counts. -/
theorem weight_pred (hle : l.length ≤ w) :
    weight S (w - 1) l + l.countP (· ∉ S) ≤ weight S w l := by
  induction l generalizing w with
  | nil => exact Nat.le_refl 0
  | cons x l ih =>
    rw [List.length_cons] at hle
    have ih := ih (w := w - 1) (by omega)
    rw [List.countP_cons]
    simp only [weight, decide_eq_true_eq]
    by_cases hx : x ∈ S
    · simp only [if_pos hx, if_neg (not_not_intro hx)]
      omega
    · simp only [if_neg hx, if_pos hx]
      omega

/-- A key that leaves sooner weighs less. -/
theorem weight_pred_le (S : Finset κ) (w : ℕ) (l : List κ) :
    weight S (w - 1) l ≤ weight S w l := by
  induction l generalizing w with
  | nil => exact Nat.le_refl 0
  | cons x l ih =>
    have ih := ih (w - 1)
    simp only [weight]
    split <;> omega

/-- The keys in front of one that is taken out lose one, the others keep their weights. -/
theorem weight_filter (hnd : l.Nodup) : weight S (w - 1) (l.filter (· ≠ k)) ≤ weight S w l := by
  induction l generalizing w with
  | nil => exact Nat.le_refl 0
  | cons x l ih =>
    rw [List.nodup_cons] at hnd
    by_cases hx : x = k
    · have hl : l.filter (· ≠ k) = l := by
        apply List.filter_eq_self.mpr
        intro y hy
        exact decide_eq_true fun heq => hnd.1 (hx ▸ heq ▸ hy)
      rw [List.filter_cons_of_neg (by simpa using hx), hl, weight]
      omega
    · have ih := ih (w := w - 1) hnd.2
      rw [List.filter_cons_of_pos (by simpa using hx), weight, weight]
      split <;> omega

/-- Keys at the end of the list take nothing from the weight. -/
theorem weight_append (S : Finset κ) (w : ℕ) (l l' : List κ) :
    weight S w l ≤ weight S w (l ++ l') := by
  induction l generalizing w with
  | nil => exact Nat.zero_le _
  | cons x l ih =>
    have ih := ih (w - 1)
    rw [List.cons_append, weight, weight]
    omega

/-- An eviction adds nothing to it. -/
theorem weight_dropLast (S : Finset κ) (w : ℕ) (l : List κ) :
    weight S w l.dropLast ≤ weight S w l := by
  rcases List.dropLast_prefix l with ⟨l', hl⟩
  calc weight S w l.dropLast ≤ weight S w (l.dropLast ++ l') := weight_append S w _ l'
    _ = weight S w l := by rw [hl]

/-- A list without repetition has no more keys of `S` than `S` has. -/
theorem countP_mem_le (hnd : l.Nodup) : l.countP (· ∈ S) ≤ S.card := by
  have hsub : (l.filter (· ∈ S)).toFinset ⊆ S := by
    intro x hx
    rw [List.mem_toFinset, List.mem_filter] at hx
    exact of_decide_eq_true hx.2
  rw [List.countP_eq_length_filter, ← List.toFinset_card_of_nodup (hnd.filter _)]
  exact Finset.card_le_card hsub

/-- A key that goes over from inside the set to outside of it costs at most the first weight. -/
theorem weight_change_countP (S T : Finset κ) (w : ℕ) (l : List κ) :
    weight T w l ≤ weight S w l + w * l.countP (· ∈ S \ T) := by
  induction l generalizing w with
  | nil => exact Nat.zero_le _
  | cons x l ih =>
    have ih := ih (w - 1)
    have hmul : (w - 1) * l.countP (· ∈ S \ T) ≤ w * l.countP (· ∈ S \ T) :=
      Nat.mul_le_mul_right _ (Nat.sub_le w 1)
    rw [List.countP_cons, Nat.mul_add, weight, weight]
    by_cases hx : x ∈ S \ T
    · rw [Finset.mem_sdiff] at hx
      rw [if_neg hx.2, if_pos hx.1, if_pos (decide_eq_true (Finset.mem_sdiff.mpr hx)), Nat.mul_one]
      omega
    · have hhead : (if x ∈ T then 0 else w) ≤ if x ∈ S then 0 else w := by
        by_cases hT : x ∈ T
        · rw [if_pos hT]
          exact Nat.zero_le _
        · rw [if_neg fun hS => hx (Finset.mem_sdiff.mpr ⟨hS, hT⟩), if_neg hT]
      omega

/-- What the other strategy drops adds to the weight, at most `w` for each key. -/
theorem weight_change (hnd : l.Nodup) : weight T w l ≤ weight S w l + w * (S \ T).card :=
  Nat.le_trans (weight_change_countP S T w l)
    (Nat.add_le_add_left (Nat.mul_le_mul_left w (countP_mem_le hnd)) _)

/-- A full list that lacks a key of `T` has at least this many keys outside of `T`. -/
theorem countP_notMem_ge (hnd : l.Nodup) (hk : k ∈ T) (hl : k ∉ l) (hcard : T.card ≤ h) :
    l.length + 1 ≤ l.countP (· ∉ T) + h := by
  have hsplit := List.length_eq_countP_add_countP (fun x => decide (x ∈ T)) (l := l)
  have hin : (k :: l).countP (· ∈ T) ≤ T.card :=
    countP_mem_le (List.nodup_cons.mpr ⟨hl, hnd⟩)
  rw [List.countP_cons_of_pos (by simpa using hk)] at hin
  simp only [decide_eq_true_eq, decide_not] at hsplit hin ⊢
  omega

end Weight

/-! ## One request -/

/-- What is left to pay misses with, if the other strategy has the keys of `S`. -/
def potential (h : ℕ) (S : Finset κ) (s : State κ ν) : ℕ :=
  weight S s.store.cap (keys s.store.items) + s.store.cap * S.card +
    (s.store.cap - h + 1) * (s.store.cap - s.store.items.length)

section Read

variable {load : κ → ν} {s : State κ ν} {k : κ} {S T : Finset κ} {h : ℕ}

/-- A request for a stored key is a hit. -/
theorem State.read_of_some {v : ν} (hv : s.store.items.lookup k = some v) :
    s.read load k = (v, { s with store := s.store.touch k, hits := s.hits + 1 }) := by
  rw [State.read, State.get_of_some hv]

/-- Any other one loads the key, and puts it. -/
theorem State.read_of_none (hv : s.store.items.lookup k = none) :
    s.read load k = (load k, State.put { s with misses := s.misses + 1 } k (load k)) := by
  rw [State.read, State.get_of_none hv]

/-- The capacity stays. -/
theorem State.cap_read : (s.read load k).2.store.cap = s.store.cap := by
  cases hv : s.store.items.lookup k with
  | none =>
    rw [State.read_of_none hv]
    exact Store.cap_put
  | some v =>
    rw [State.read_of_some hv]
    exact Store.cap_touch

/-- What the other strategy does is paid for by what it fetches. -/
theorem potential_change (h : ℕ) (S T : Finset κ) (s : State κ ν) :
    potential h T s ≤ potential h S s + s.store.cap * (T \ S).card := by
  have hweight := weight_change (S := S) (T := T) (w := s.store.cap) s.store.nodup
  have hcard : (S \ T).card + T.card = (T \ S).card + S.card := by
    rw [Finset.card_sdiff_add_card, Finset.card_sdiff_add_card, Finset.union_comm]
  have hmul : s.store.cap * (S \ T).card + s.store.cap * T.card =
      s.store.cap * (T \ S).card + s.store.cap * S.card := by
    rw [← Nat.mul_add, hcard, Nat.mul_add]
  unfold potential
  omega

/-- A request for a key that the other strategy has: a miss is paid for by the potential. -/
theorem potential_read (load : κ → ν) (hk : k ∈ T) (hcard : T.card ≤ h) (hle : h ≤ s.store.cap) :
    (s.store.cap - h + 1) * (s.read load k).2.misses + potential h T (s.read load k).2 ≤
      (s.store.cap - h + 1) * s.misses + potential h T s := by
  have hnd := s.store.nodup
  cases hv : s.store.items.lookup k with
  | some v =>
    -- a hit: the key comes to the front, where it counts nothing
    have hmem : k ∈ keys s.store.items := lookup_isSome.mp (by rw [hv]; rfl)
    have hlen := length_erase hmem hnd
    have hfilter := weight_filter (S := T) (k := k) (w := s.store.cap) hnd
    rw [State.read_of_some hv]
    simp only [potential, Store.items_touch_of_some hv, Store.cap_touch, keys, List.map_cons,
      List.length_cons, hlen]
    rw [weight_cons_of_mem hk]
    rw [← keys_erase] at hfilter
    unfold keys at hfilter
    omega
  | none =>
    have hnot : k ∉ keys s.store.items := lookup_eq_none.mp hv
    have hkeys : (keys s.store.items).length = s.store.items.length := List.length_map _
    have hroom := s.store.length_le
    rw [State.read_of_none hv]
    simp only [potential, State.put, Store.items_put_of_notMem hnot, Store.cap_put, keys,
      List.map_cons, List.length_cons]
    rw [weight_cons_of_mem hk, Nat.mul_succ]
    by_cases hfull : s.store.items.length = s.store.cap
    · -- full: every key that the other strategy lacks loses one, and the last one leaves
      have hpred := weight_pred (S := T) (w := s.store.cap) (l := keys s.store.items) (by omega)
      have hcount := countP_notMem_ge hnd hk hnot hcard
      have hdrop := weight_dropLast T (s.store.cap - 1) (keys s.store.items)
      have hpos := s.store.cap_pos
      rw [room, if_pos hfull, List.map_dropLast, List.length_dropLast]
      unfold keys at hdrop hpred hcount hkeys
      have hzero : s.store.cap - (s.store.items.length - 1 + 1) = 0 := by omega
      have hzero' : s.store.cap - s.store.items.length = 0 := by omega
      rw [hzero, hzero']
      omega
    · -- there is room: the fuller list has the less to pay for
      have hpred := weight_pred_le T s.store.cap (keys s.store.items)
      have hmul : (s.store.cap - h + 1) * (s.store.cap - s.store.items.length) =
          (s.store.cap - h + 1) * (s.store.cap - (s.store.items.length + 1)) +
            (s.store.cap - h + 1) := by
        rw [← Nat.mul_succ]
        congr 1
        omega
      rw [room, if_neg hfull]
      unfold keys at hpred
      omega

/-! ## All requests -/

/-- One request after the other, from a list that the other strategy's keys are compared with. -/
theorem misses_run (load : κ → ν) (hle : h ≤ s.store.cap) {schedule : List (κ × Finset κ)}
    (hfeasible : Feasible h schedule) :
    (s.store.cap - h + 1) *
        (runTotal (State.read load) (schedule.map Prod.fst) s).2.misses ≤
      (s.store.cap - h + 1) * s.misses + potential h S s +
        s.store.cap * fetches S schedule := by
  induction schedule generalizing S s with
  | nil => exact Nat.le_trans (Nat.le_add_right _ _) (Nat.le_add_right _ _)
  | cons p schedule ih =>
    have hp := hfeasible p List.mem_cons_self
    have hcap : (s.read load p.1).2.store.cap = s.store.cap := State.cap_read
    have hrest := ih (S := p.2) (s := (s.read load p.1).2) (by rw [hcap]; exact hle)
      fun q hq => hfeasible q (List.mem_cons_of_mem p hq)
    have hread := potential_read load hp.1 hp.2 hle
    have hchange := potential_change h S p.2 s
    rw [hcap] at hrest
    rw [fetches, Nat.mul_add]
    calc _ ≤ _ := hrest
      _ ≤ _ := by omega

/-- **Competitiveness.** From an empty list, against any strategy with room for `h` keys that has
the requested key at each request and starts with none. -/
theorem misses_le (load : κ → ν) {cap : ℕ} (hpos : 0 < cap) (hle : h ≤ cap)
    {schedule : List (κ × Finset κ)} (hfeasible : Feasible h schedule) :
    (cap - h + 1) * (runTotal (State.read load) (schedule.map Prod.fst)
        (State.init cap hpos)).2.misses ≤
      cap * fetches ∅ schedule + (cap - h + 1) * cap := by
  have hrun := misses_run load (S := ∅) (s := State.init cap hpos) hle hfeasible
  simp only [potential, State.init, Store.empty, keys, List.map_nil, weight, Finset.card_empty,
    List.length_nil, Nat.mul_zero, Nat.zero_add, Nat.sub_zero] at hrun
  exact Nat.le_trans hrun (Nat.le_of_eq (Nat.add_comm _ _))

/-- A request misses once at most. -/
theorem misses_read (load : κ → ν) : (s.read load k).2.misses ≤ s.misses + 1 := by
  cases hv : s.store.items.lookup k with
  | none =>
    rw [State.read_of_none hv]
    exact Nat.le_refl _
  | some v =>
    rw [State.read_of_some hv]
    exact Nat.le_succ _

/-- There are no more misses than requests. -/
theorem misses_le_length (requests : List κ) (s : State κ ν) :
    (runTotal (State.read load) requests s).2.misses ≤ s.misses + requests.length := by
  induction requests generalizing s with
  | nil => exact Nat.le_refl _
  | cons k requests ih =>
    have hrest := ih (s.read load k).2
    have hread := misses_read load (s := s) (k := k)
    rw [List.length_cons]
    exact Nat.le_trans hrest (by omega)

/-- Only what was loaded is stored. -/
theorem read_loaded (hs : ∀ p ∈ s.store.items, p.2 = load p.1) :
    (s.read load k).1 = load k ∧ ∀ p ∈ (s.read load k).2.store.items, p.2 = load p.1 := by
  cases hv : s.store.items.lookup k with
  | none =>
    rw [State.read_of_none hv]
    refine ⟨rfl, ?_⟩
    intro p hp
    rcases State.mem_put hp with rfl | hold
    · rfl
    · exact hs p hold
  | some v =>
    rw [State.read_of_some hv]
    refine ⟨hs _ (mem_of_lookup hv), ?_⟩
    intro p hp
    have hget : p ∈ (s.get k).2.store.items := by
      rw [State.get_of_some hv]
      exact hp
    exact hs p (State.mem_get hget)

/-- Every request is answered with what would be loaded. -/
theorem answers_read (hs : ∀ p ∈ s.store.items, p.2 = load p.1) (requests : List κ) :
    (runTotal (State.read load) requests s).1 = requests.map load := by
  induction requests generalizing s with
  | nil => rfl
  | cons k requests ih =>
    have hread := read_loaded (k := k) hs
    show (s.read load k).1 :: (runTotal (State.read load) requests (s.read load k).2).1 = _
    rw [ih hread.2, hread.1, List.map_cons]

end Read

end Recency
