import LruCache.Web.Simulation

/-!
# What the simulation makes up

Whatever is drawn, the operations that `runSimulation` makes up are well formed, no three in a row
are of one kind, and the map that it keeps has the keys of the cache after each operation, in the
order of their use. So it is known in advance which operations will find their key
(`outcome_by_draws`).

Main results:

* `Draw.index_lt`, `Draw.hotIndex_lt`, `Draw.value_range` — the indices and values that are
  computed from draws are in range, rounding included.
* `generated` — whatever is drawn, the operations are well formed, no three in a row are of a kind,
  and the map mirrors the store after each of them.
* `outcome_by_draws` — whether an operation finds its key is known from the draws and the state
  before it.

Deliberate scope limits:

* A draw is a double below 1, as `Math.random()` gives them; how they are distributed plays no
  role. The products and squares are rounded as doubles are (`LruCache.Lib.Double`).
* The server carries out the operations without others in between.
-/

namespace LruCache

open FloatingPoint Recency Transition

/-! ## Draws -/

section Draw

variable {r : Draw} {n : Nat}

/-- A number below `n` rounds down to an index of a list of `n` elements. -/
theorem floor_toNat_lt {x : ℚ} (h : x < n) (hn : 0 < n) : ⌊x⌋.toNat < n := by
  have hfloor : ⌊x⌋ < (n : Int) := Int.floor_lt.mpr (by exact_mod_cast h)
  omega

/-- `Math.random()` stays away from 1 by the distance of the doubles below 1, so that no product
with it reaches `n`. -/
theorem Draw.le_one_sub (r : Draw) : r.1 ≤ 1 - 2 ^ (-(53 : ℕ) : ℤ) :=
  FloatingPoint.le_one_sub r.2.2.2 r.2.2.1 (by decide) (by decide)

/-- The rounded product stays below `n`, so the index is one of the list. -/
theorem Draw.index_lt (hn : 0 < n) : r.index n < n :=
  floor_toNat_lt (nearest_mul_lt r.2.1 r.le_one_sub (by decide) hn) hn

/-- The index that favours the keys used last is within the list as well. -/
theorem Draw.hotIndex_lt (hn : 0 < n) : r.hotIndex n < n := by
  have hsquare : double (r.1 * r.1) ≤ 1 - 2 ^ (-(53 : ℕ) : ℤ) :=
    nearest_mul_le_one_sub r.2.1 r.le_one_sub r.2.1 r.le_one_sub (by decide) (by decide)
  have hnonneg : 0 ≤ double (r.1 * r.1) := nearest_nonneg (mul_nonneg r.2.1 r.2.1)
  exact floor_toNat_lt (nearest_mul_lt hnonneg hsquare (by decide) hn) hn

/-- From 8192 on the doubles below 16384 are the multiples of `2 ^ -39`, so the sum is not
rounded. -/
theorem double_add_of_large {x : ℚ} (hx : 8192 ≤ x) (hlt : x < 9000) :
    double (double x + 1000) = double x + 1000 := by
  have hpos : 0 < x := by linarith
  have hexp : exponent 53 (-1074) x ≤ -39 :=
    exponent_le hpos (lt_trans hlt (by norm_num)) (by decide)
  have hle : double x ≤ 9000 := nearest_le hlt.le ⟨9000 * 2 ^ 39, by norm_num⟩ hexp
  have hge : 8192 ≤ double x := le_nearest hx ⟨8192 * 2 ^ 39, by norm_num⟩ hexp
  have hlog : Int.log 2 |x| = 13 := by
    rw [abs_of_pos hpos]
    refine le_antisymm ?_ ?_
    · have := (Int.lt_zpow_iff_log_lt (b := 2) (x := 14) (by norm_num) hpos).mp
        (lt_trans hlt (by norm_num))
      omega
    · exact (Int.zpow_le_iff_le_log (b := 2) (x := 13) (by norm_num) hpos).mp
        (le_trans (by norm_num) hx)
  have hexp' : exponent 53 (-1074) x = -39 := by
    rw [exponent, hlog]
    decide
  rcases nearest_mem_grid 53 (-1074) x with ⟨m, hm⟩
  rw [hexp'] at hm
  refine nearest_of_grid (k := -39) ⟨m + 1000 * 2 ^ 39, ?_⟩ ?_
  · rw [double, hm]
    push_cast
    norm_num
    ring
  · refine exponent_le (by linarith) ?_ (by decide)
    exact lt_of_le_of_lt (by linarith : double x + 1000 ≤ 10000) (by norm_num)

/-- The values have four digits. -/
theorem Draw.value_range (r : Draw) : 1000 ≤ r.value ∧ r.value < 10000 := by
  have hproduct : double (r.1 * (9000 : ℕ)) < (9000 : ℕ) :=
    nearest_mul_lt r.2.1 r.le_one_sub (by decide) (by decide)
  have hnonneg : 0 ≤ double (r.1 * (9000 : ℕ)) :=
    nearest_nonneg (mul_nonneg r.2.1 (by norm_num))
  have hless : r.1 * (9000 : ℕ) < 9000 := by
    have := mul_lt_mul_of_pos_right r.2.2.1 (by norm_num : (0 : ℚ) < 9000)
    push_cast
    linarith
  push_cast at hproduct hnonneg hless
  have hexp : exponent 53 (-1074) (double (r.1 * 9000) + 1000) ≤ 0 :=
    exponent_le (by linarith) (lt_trans (by linarith : _ < (10000 : ℚ)) (by norm_num)) (by decide)
  have hlow : (1000 : ℚ) ≤ double (double (r.1 * 9000) + 1000) :=
    le_nearest (by linarith) ⟨1000, by norm_num⟩ hexp
  have hhigh : double (double (r.1 * 9000) + 1000) < (10000 : ℕ) := by
    rcases lt_or_ge (r.1 * 9000) 8192 with hsmall | hlarge
    · -- then the sum is rounded to 9192 at most
      have hfirst : double (r.1 * 9000) ≤ 8192 := by
        rcases (mul_nonneg r.2.1 (by norm_num : (0 : ℚ) ≤ 9000)).eq_or_lt with hzero | hpos
        · rw [← hzero, double, nearest_zero]
          norm_num
        · refine nearest_le hsmall.le (k := 0) ⟨8192, by norm_num⟩ ?_
          exact exponent_le hpos (lt_trans hless (by norm_num)) (by decide)
      have hsum : double (double (r.1 * 9000) + 1000) ≤ 9192 :=
        nearest_le (by linarith) ⟨9192, by norm_num⟩ hexp
      push_cast
      linarith
    · rw [double_add_of_large hlarge hless]
      push_cast
      linarith
  have hle : (1000 : Int) ≤ ⌊double (double (r.1 * 9000) + 1000)⌋ :=
    Int.le_floor.mpr (by exact_mod_cast hlow)
  have hlt := floor_toNat_lt hhigh (by decide)
  unfold Draw.value
  omega

end Draw

/-! ## Keys -/

/-- An index within the list is that of a key. -/
theorem keyAt_mem {keys : List String} {i : Nat} (h : i < keys.length) : keyAt keys i ∈ keys := by
  rw [keyAt, List.getElem?_eq_getElem h]
  exact List.getElem_mem h

section Keys

variable {shadowCache : InsertionOrder String} {draws : Draws} {choice : Draw}

/-- The names that are not in the map. -/
theorem mem_missingKeys {k : String} :
    k ∈ missingKeys shadowCache ↔ k ∈ possibleKeys ∧ k ∉ shadowCache.keys := by
  rw [missingKeys, List.mem_filter, Bool.not_eq_true', ← Bool.not_eq_true,
    InsertionOrder.has_iff]

/-- A name is missing, unless all names are stored. -/
theorem missingKey_cases (shadowCache : InsertionOrder String) (choice : Draw) :
    missingKey shadowCache choice ∈ possibleKeys ∧
      (missingKey shadowCache choice ∈ shadowCache.keys ↔ missingKeys shadowCache = []) := by
  unfold missingKey
  split
  · rename_i hpos
    have hmem := mem_missingKeys.mp (keyAt_mem (choice.index_lt hpos))
    refine ⟨hmem.1, fun hstored => absurd hstored hmem.2, fun hnil => ?_⟩
    rw [hnil] at hpos
    exact absurd hpos (Nat.lt_irrefl 0)
  · rename_i hpos
    have hnil : missingKeys shadowCache = [] := List.length_eq_zero_iff.mp (by omega)
    have hfirst : keyAt possibleKeys 0 ∈ possibleKeys := keyAt_mem (by decide)
    refine ⟨hfirst, fun _ => hnil, fun _ => ?_⟩
    by_contra hmissing
    have hmem := mem_missingKeys.mpr ⟨hfirst, hmissing⟩
    rw [hnil] at hmem
    cases hmem

/-- A `put` is for a new key if one is wanted and there is one, or if nothing is stored. -/
theorem putKey_cases (shadowCache : InsertionOrder String) (draws : Draws) :
    (putKey shadowCache draws ∈ possibleKeys ∨ putKey shadowCache draws ∈ shadowCache.keys) ∧
      (putKey shadowCache draws ∉ shadowCache.keys ↔
        (missingKeys shadowCache ≠ [] ∧ draws.decision.1 < double (8 / 10)) ∨
          shadowCache.keys = []) := by
  unfold putKey
  dsimp only
  split
  · rename_i h
    have hmem := mem_missingKeys.mp (keyAt_mem (draws.choice.index_lt h.1))
    exact ⟨Or.inl hmem.1, fun _ => Or.inl ⟨List.length_pos_iff.mp h.1, h.2⟩, fun _ => hmem.2⟩
  · rename_i h
    split
    · rename_i hpos
      have hmem : keyAt shadowCache.keys _ ∈ shadowCache.keys :=
        keyAt_mem (draws.choice.index_lt hpos)
      refine ⟨Or.inr hmem, fun hnew => absurd hmem hnew, ?_⟩
      rintro (hwanted | hnil)
      · exact absurd ⟨List.length_pos_iff.mpr hwanted.1, hwanted.2⟩ h
      · rw [hnil] at hpos
        exact absurd hpos (Nat.lt_irrefl 0)
    · rename_i hpos
      have hnil : shadowCache.keys = [] := List.length_eq_zero_iff.mp (by omega)
      have hmem : keyAt possibleKeys (draws.choice.index possibleKeys.length) ∈ possibleKeys :=
        keyAt_mem (draws.choice.index_lt (by decide))
      refine ⟨Or.inl hmem, fun _ => Or.inr hnil, fun _ => ?_⟩
      rw [hnil]
      exact List.not_mem_nil

/-- A key that is wanted is stored, if there is one; one that is not wanted is missing, if there
is one. -/
theorem wantedKey_cases {wanted : Prop} [Decidable wanted] {i : Nat}
    (hi : 0 < shadowCache.keys.length → i < shadowCache.keys.length) (choice : Draw) :
    ((if wanted ∧ shadowCache.keys.length > 0 then keyAt shadowCache.keys i
        else missingKey shadowCache choice) ∈ possibleKeys ∨
      (if wanted ∧ shadowCache.keys.length > 0 then keyAt shadowCache.keys i
        else missingKey shadowCache choice) ∈ shadowCache.keys) ∧
    ((if wanted ∧ shadowCache.keys.length > 0 then keyAt shadowCache.keys i
        else missingKey shadowCache choice) ∈ shadowCache.keys ↔
      (wanted ∧ shadowCache.keys ≠ []) ∨ missingKeys shadowCache = []) := by
  rcases missingKey_cases shadowCache choice with ⟨hname, hmissing⟩
  split
  · rename_i h
    have hmem : keyAt shadowCache.keys i ∈ shadowCache.keys := keyAt_mem (hi h.2)
    exact ⟨Or.inr hmem, fun _ => Or.inl ⟨h.1, List.length_pos_iff.mp h.2⟩, fun _ => hmem⟩
  · rename_i h
    refine ⟨Or.inl hname, fun hstored => Or.inr (hmissing.mp hstored), ?_⟩
    rintro (hwanted | hnil)
    · exact absurd ⟨hwanted.1, List.length_pos_iff.mpr hwanted.2⟩ h
    · exact hmissing.mpr hnil

/-- The key of a get is a name or a stored key, and it is stored if a hit is wanted and there is
something to hit, or if there is nothing else. -/
theorem getKey_cases (filling : Bool) (shadowCache : InsertionOrder String) (draws : Draws) :
    (getKey filling shadowCache draws ∈ possibleKeys ∨
      getKey filling shadowCache draws ∈ shadowCache.keys) ∧
    (getKey filling shadowCache draws ∈ shadowCache.keys ↔
      ((filling = true ∨ draws.r.1 < double (65 / 100)) ∧ shadowCache.keys ≠ []) ∨
        missingKeys shadowCache = []) := by
  have hwanted : (if filling then true else decide (draws.r.1 < double (65 / 100))) = true ↔
      filling = true ∨ draws.r.1 < double (65 / 100) := by
    cases filling <;> simp
  rw [← hwanted]
  refine wantedKey_cases (fun hpos => ?_) draws.choice
  have := draws.choice.hotIndex_lt hpos
  omega

/-- The key of a deletion, likewise. -/
theorem delKey_cases (shadowCache : InsertionOrder String) (draws : Draws) :
    (delKey shadowCache draws ∈ possibleKeys ∨ delKey shadowCache draws ∈ shadowCache.keys) ∧
    (delKey shadowCache draws ∈ shadowCache.keys ↔
      (draws.decision.1 < double (7 / 10) ∧ shadowCache.keys ≠ []) ∨
        missingKeys shadowCache = []) := by
  have hwanted : decide (draws.decision.1 < double (7 / 10)) = true ↔
      draws.decision.1 < double (7 / 10) := decide_eq_true_iff
  rw [← hwanted]
  exact wantedKey_cases (fun hpos => draws.choice.index_lt hpos) draws.choice

end Keys

/-! ## Operations in a row -/

/-- Which of the three functions of the page it is. -/
def Operation.kind : Operation → PageOp
  | .put _ _ => .put
  | .get _ => .get
  | .remove _ => .del

/-- No operation is made more than twice in a row, and the streak knows of the last two. -/
structure Alternates (kinds : List PageOp) (s : Streak) : Prop where
  noThree : ∀ op, ¬ [op, op, op] <:+: kinds
  last : kinds.getLast? = s.lastOpType
  twice : ∀ op, [op, op] <:+ kinds → s.consecutiveCount = 2
  once : kinds ≠ [] → 0 < s.consecutiveCount

/-- The operation that comes out goes on with the streak, which was shorter than two, or ends
it. -/
theorem Streak.limit_cases (s : Streak) (opType : PageOp) (alternative : Draw) :
    (s.limit opType alternative).2.lastOpType = some (s.limit opType alternative).1 ∧
      ((some (s.limit opType alternative).1 ≠ s.lastOpType ∧
          (s.limit opType alternative).2.consecutiveCount = 1) ∨
        (some (s.limit opType alternative).1 = s.lastOpType ∧ s.consecutiveCount < 2 ∧
          (s.limit opType alternative).2.consecutiveCount = s.consecutiveCount + 1)) := by
  unfold Streak.limit
  split
  · rename_i hsame
    split
    · refine ⟨rfl, Or.inl ⟨?_, rfl⟩⟩
      have hlen : 0 < ([PageOp.put, .get, .del].filter (· ≠ opType)).length := by
        cases opType <;> decide
      have hindex := alternative.index_lt hlen
      dsimp only
      rw [List.getElem?_eq_getElem hindex, Option.getD_some, ← hsame]
      have hmem := List.getElem_mem hindex
      simp only [List.mem_filter, decide_eq_true_eq] at hmem
      exact fun heq => hmem.2 (Option.some.inj heq)
    · exact ⟨hsame.symm, Or.inr ⟨hsame, by omega, rfl⟩⟩
  · rename_i hother
    exact ⟨rfl, Or.inl ⟨hother, rfl⟩⟩

/-- At first there are none in a row. -/
theorem Alternates.start : Alternates [] { lastOpType := none, consecutiveCount := 0 } where
  noThree := by
    intro op h
    exact absurd h.length_le (by simp)
  last := rfl
  twice := by
    intro op h
    exact absurd h.length_le (by simp)
  once := fun h => absurd rfl h

/-- The kind that is drawn is replaced if it would be the third in a row. -/
theorem Alternates.limit {kinds : List PageOp} {s : Streak} (h : Alternates kinds s)
    (opType : PageOp) (alternative : Draw) :
    Alternates (kinds ++ [(s.limit opType alternative).1]) (s.limit opType alternative).2 := by
  rcases s.limit_cases opType alternative with ⟨hlast, hcases⟩
  generalize s.limit opType alternative = result at hlast hcases ⊢
  -- two of a kind at the end: the streak goes on
  have hpair : ∀ op, [op, op] <:+ kinds ++ [result.1] →
      op = result.1 ∧ some result.1 = s.lastOpType ∧ s.consecutiveCount < 2 ∧
        result.2.consecutiveCount = s.consecutiveCount + 1 := by
    intro op hsuffix
    rcases List.suffix_concat_iff.mp hsuffix with hnil | ⟨t, ht, htail⟩
    · cases hnil
    · have hsplit : t ++ [result.1] = [op] ++ [op] := ht.symm
      rcases List.append_inj' hsplit rfl with ⟨rfl, hop⟩
      have hop := (List.cons.inj hop).1
      have hend : kinds.getLast? = some op := by
        rcases htail with ⟨l, rfl⟩
        simp
      rw [h.last, ← hop] at hend
      rcases hcases with ⟨hne, _⟩ | hgoes
      · exact absurd hend.symm hne
      · exact ⟨hop.symm, hgoes⟩
  refine ⟨?_, ?_, ?_, ?_⟩
  · intro op hinfix
    rcases List.infix_concat_iff.mp hinfix with hsuffix | hold
    · rcases List.suffix_concat_iff.mp hsuffix with hnil | ⟨t, ht, htail⟩
      · cases hnil
      · have hsplit : t ++ [result.1] = [op, op] ++ [op] := ht.symm
        rcases List.append_inj' hsplit rfl with ⟨rfl, _⟩
        have hcount := h.twice op htail
        have hend : [op, op] <:+ kinds ++ [result.1] := by
          refine List.IsSuffix.trans ?_ hsuffix
          exact ⟨[op], rfl⟩
        have hlt := (hpair op hend).2.2.1
        omega
    · exact h.noThree op hold
  · rw [List.getLast?_concat, hlast]
  · intro op hsuffix
    rcases hpair op hsuffix with ⟨_, hgoes, hlt, hcount⟩
    have hne : kinds ≠ [] := by
      rintro rfl
      rw [← h.last] at hgoes
      cases hgoes
    have hpos := h.once hne
    omega
  · intro _
    rcases hcases with ⟨_, hcount⟩ | ⟨_, _, hcount⟩ <;> omega

/-! ## The map -/

/-- The key of the operation. -/
def Operation.key : Operation → String
  | .put key _ => key
  | .get key => key
  | .remove key => key

/-- The store after the operations. -/
def after (st : State String String) (ops : List Operation) : State String String :=
  ops.foldl Operation.next st

section Store

variable {st : State String String} {op : Operation} {ops : List Operation}

/-- The last operation is carried out last. -/
theorem after_snoc : after st (ops ++ [op]) = op.next (after st ops) := by
  rw [after, List.foldl_append]
  rfl

/-- The state after a batch is the state after its operations. -/
theorem runTotal_step (ops : List Operation) (st : State String String) :
    (runTotal Operation.step ops st).2 = after st ops := by
  induction ops generalizing st with
  | nil => rfl
  | cons op ops ih => exact ih (op.next st)

/-- No operation changes the capacity. -/
theorem Operation.cap_next (op : Operation) (st : State String String) :
    (op.next st).store.cap = st.store.cap := by
  cases op with
  | put key value => exact Store.cap_put
  | get key => exact State.cap_step (.get key) st
  | remove key => rfl

/-- So it is the same after any of them. -/
theorem cap_after (st : State String String) (ops : List Operation) :
    (after st ops).store.cap = st.store.cap := by
  induction ops generalizing st with
  | nil => rfl
  | cons op ops ih => exact (ih (op.next st)).trans (op.cap_next st)

/-- An operation brings in no key but its own. -/
theorem Operation.mem_keys_next {k : String} (h : k ∈ keys (op.next st).store.items) :
    k = op.key ∨ k ∈ keys st.store.items := by
  rcases List.mem_map.mp h with ⟨p, hp, rfl⟩
  cases op with
  | put key value =>
    rcases State.mem_put hp with rfl | hold
    · exact Or.inl rfl
    · exact Or.inr (List.mem_map_of_mem hold)
  | get key => exact Or.inr (List.mem_map_of_mem (State.mem_get hp))
  | remove key => exact Or.inr (List.mem_map_of_mem (State.mem_remove hp))

/-- The map foresees the operation. -/
theorem mirrors_updateShadow {shadowCache : InsertionOrder String}
    (h : Mirrors shadowCache st.store) (op : Operation) :
    Mirrors (updateShadow st.store.cap shadowCache op) (op.next st).store := by
  cases op with
  | put key value => exact h.put key value
  | get key =>
    by_cases hk : key ∈ shadowCache.keys
    · have hsome := lookup_isSome.mpr (h.mem_iff.mp hk)
      rcases Option.isSome_iff_exists.mp hsome with ⟨value, hvalue⟩
      have htouch := h.touch hk
      rw [updateShadow, if_pos (InsertionOrder.has_iff.mpr hk), Operation.next,
        State.get_of_some hvalue]
      exact htouch
    · have hnone := lookup_eq_none.mpr (mt h.mem_iff.mpr hk)
      rw [updateShadow, if_neg (mt InsertionOrder.has_iff.mp hk), Operation.next,
        State.get_of_none hnone]
      exact h
  | remove key => exact h.remove key

end Store

/-! ## Rounds -/

/-- The operations that were made up so far. -/
def Generator.operations (g : Generator) : List Operation := g.genHistory.map GenEntry.operation

/-- The key is a name of the page or one that was stored when the simulation began, and a value
has four digits. -/
structure MadeUp (st : State String String) (op : Operation) : Prop where
  key : op.key ∈ possibleKeys ∨ op.key ∈ keys st.store.items
  value : ∀ value, op = .put op.key value → ∃ n, 1000 ≤ n ∧ n < 10000 ∧ value = toString n

/-- Will the operation find its key? All names may be stored already, or nothing at all; else the
draws decide. -/
def Foreseen (st : State String String) (draws : Draws) : Operation → Prop
  | .put _ _ => ¬ (((∃ k ∈ possibleKeys, k ∉ keys st.store.items) ∧
      draws.decision.1 < double (8 / 10)) ∨ st.store.items = [])
  | .get _ => ((filling st.store.items.length st.store.cap = true ∨ draws.r.1 < double (65 / 100)) ∧
      st.store.items ≠ []) ∨ ∀ k ∈ possibleKeys, k ∈ keys st.store.items
  | .remove _ => (draws.decision.1 < double (7 / 10) ∧ st.store.items ≠ []) ∨
      ∀ k ∈ possibleKeys, k ∈ keys st.store.items

section Rounds

variable {st : State String String} {g : Generator}

/-- No name is missing from the map if all of them are stored. -/
theorem missing_nil_iff (h : Mirrors g.shadowCache st.store) :
    missingKeys g.shadowCache = [] ↔ ∀ k ∈ possibleKeys, k ∈ keys st.store.items := by
  rw [List.eq_nil_iff_forall_not_mem]
  simp only [mem_missingKeys, h.mem_iff, not_and, not_not]

/-- The map is empty if the store is. -/
theorem stored_nil_iff (h : Mirrors g.shadowCache st.store) :
    g.shadowCache.keys = [] ↔ st.store.items = [] := by
  rw [h, List.reverse_eq_nil_iff, keys, List.map_eq_nil_iff]

/-- What one round chooses. -/
theorem choose_cases (h : Mirrors g.shadowCache st.store) (draws : Draws) :
    ∃ opType, (g.choose st.store.cap draws).1.kind = (g.streak.limit opType draws.alternative).1 ∧
      (g.choose st.store.cap draws).2 = (g.streak.limit opType draws.alternative).2 ∧
      MadeUp st (g.choose st.store.cap draws).1 ∧
      ((g.choose st.store.cap draws).1.key ∈ keys st.store.items ↔
        Foreseen st draws (g.choose st.store.cap draws).1) := by
  refine ⟨drawOp (filling g.shadowCache.size st.store.cap) draws.r
    (decide (g.shadowCache.keys.length > 0)), ?_⟩
  have hstored : ∀ {k : String}, k ∈ possibleKeys ∨ k ∈ g.shadowCache.keys →
      k ∈ possibleKeys ∨ k ∈ keys st.store.items := fun hk => hk.imp_right h.mem_iff.mp
  unfold Generator.choose
  dsimp only
  generalize g.streak.limit _ draws.alternative = result
  rcases result with ⟨kind, streak⟩
  cases kind with
  | put =>
    rcases putKey_cases g.shadowCache draws with ⟨hkey, hnew⟩
    refine ⟨rfl, rfl, ⟨hstored hkey, ?_⟩, ?_⟩
    · intro value heq
      cases heq
      exact ⟨draws.value.value, draws.value.value_range.1, draws.value.value_range.2, rfl⟩
    · have hmissing : missingKeys g.shadowCache ≠ [] ↔
          ∃ k ∈ possibleKeys, k ∉ keys st.store.items := by
        rw [ne_eq, missing_nil_iff h]
        simp
      rw [Foreseen, ← hmissing, ← stored_nil_iff h, ← hnew, not_not, h.mem_iff]
      rfl
  | get =>
    rcases getKey_cases (filling g.shadowCache.size st.store.cap) g.shadowCache draws with
      ⟨hkey, hfound⟩
    refine ⟨rfl, rfl, ⟨hstored hkey, ?_⟩, ?_⟩
    · intro value heq
      cases heq
    · rw [h.mem_iff, missing_nil_iff h, ne_eq, stored_nil_iff h, h.size_eq] at hfound
      rw [h.size_eq]
      exact hfound
  | del =>
    rcases delKey_cases g.shadowCache draws with ⟨hkey, hfound⟩
    refine ⟨rfl, rfl, ⟨hstored hkey, ?_⟩, ?_⟩
    · intro value heq
      cases heq
    · rw [h.mem_iff, missing_nil_iff h, ne_eq, stored_nil_iff h] at hfound
      exact hfound

/-- What holds of the loop after the rounds with the given draws. -/
structure Generated (st : State String String) (draws : List Draws) (g : Generator) : Prop where
  length : g.operations.length = draws.length
  batch : g.batchStr = batchStr g.operations
  mirrors : Mirrors g.shadowCache (after st g.operations).store
  alternates : Alternates (g.operations.map Operation.kind) g.streak
  madeUp : ∀ op ∈ g.operations, MadeUp st op
  stored : ∀ k ∈ keys (after st g.operations).store.items,
    k ∈ possibleKeys ∨ k ∈ keys st.store.items
  foreseen : ∀ i op d, g.operations[i]? = some op → draws[i]? = some d →
    (op.key ∈ keys (after st (g.operations.take i)).store.items ↔
      Foreseen (after st (g.operations.take i)) d op)

/-- The text of the batch grows by the token of the operation. -/
theorem batchStr_snoc (ops : List Operation) (op : Operation) :
    batchStr (ops ++ [op]) = batchStr ops ++ op.token ++ "|" := by
  induction ops with
  | nil => simp [batchStr]
  | cons first ops ih =>
    rw [List.cons_append, batchStr, ih, batchStr]
    simp only [String.append_assoc]

/-- Before the first round, the map has been filled from the state that was captured. -/
theorem generated_start (st : State String String) :
    Generated st [] (Generator.start (viewOf st)) where
  length := rfl
  batch := rfl
  mirrors := mirrors_setAll st.store
  alternates := .start
  madeUp := by
    intro op hop
    cases hop
  stored := fun _ hk => Or.inr hk
  foreseen := by
    intro i op d _ hd
    cases hd

/-- One more round. -/
theorem Generated.round {draws : List Draws} (h : Generated st draws g) (ops : Nat) (d : Draws) :
    Generated st (draws ++ [d]) (g.round st.store.cap ops d) := by
  have hchoose := choose_cases h.mirrors d
  rw [cap_after] at hchoose
  rcases hchoose with ⟨opType, hkind, hstreak, hmade, hforeseen⟩
  have hops : (g.round st.store.cap ops d).operations =
      g.operations ++ [(g.choose st.store.cap d).1] := by
    simp [Generator.round, Generator.operations]
  have hmirrors := mirrors_updateShadow h.mirrors (g.choose st.store.cap d).1
  rw [cap_after] at hmirrors
  have hkey : (g.choose st.store.cap d).1.key ∈ possibleKeys ∨
      (g.choose st.store.cap d).1.key ∈ keys st.store.items :=
    hmade.key.elim Or.inl (h.stored _)
  refine ⟨?_, ?_, ?_, ?_, ?_, ?_, ?_⟩
  · rw [hops, List.length_append, List.length_append, h.length]
    rfl
  · rw [hops, batchStr_snoc, ← h.batch]
    rfl
  · rw [hops, after_snoc]
    exact hmirrors
  · rw [hops, List.map_append, List.map_singleton, hkind]
    have hlimit := h.alternates.limit opType d.alternative
    rw [← hstreak] at hlimit
    exact hlimit
  · rw [hops]
    intro op hop
    rcases List.mem_append.mp hop with hold | hnew
    · exact h.madeUp op hold
    · rw [List.mem_singleton.mp hnew]
      exact ⟨hkey, hmade.value⟩
  · rw [hops, after_snoc]
    intro k hk
    rcases Operation.mem_keys_next hk with rfl | hold
    · exact hkey
    · exact h.stored k hold
  · intro i op d' hop hd
    rw [hops] at hop ⊢
    by_cases hi : i < g.operations.length
    · rw [List.getElem?_append_left hi] at hop
      rw [List.getElem?_append_left (h.length ▸ hi)] at hd
      rw [List.take_append_of_le_length (Nat.le_of_lt hi)]
      exact h.foreseen i op d' hop hd
    · -- the operation of this round
      have hi' : i = g.operations.length := by
        have hlt := (List.getElem?_eq_some_iff.mp hop).1
        rw [List.length_append, List.length_singleton] at hlt
        omega
      subst hi'
      rw [List.getElem?_concat_length] at hop
      rw [h.length, List.getElem?_concat_length] at hd
      cases hop
      cases hd
      rw [List.take_left]
      exact hforeseen

end Rounds

/-! ## The whole loop -/

/-- By induction over the draws: each round keeps what `Generated` says. -/
theorem generated (st : State String String) (draws : List Draws) :
    Generated st draws (generate (viewOf st) draws) := by
  have hloop : ∀ ops, Generated st draws
      (draws.foldl (Generator.round st.store.cap ops) (Generator.start (viewOf st))) := by
    intro ops
    induction draws using List.reverseRecOn with
    | nil => exact generated_start st
    | append_singleton draws d ih =>
      rw [List.foldl_append]
      exact ih.round ops d
  exact hloop draws.length

/-- Whatever is drawn, there is one operation for each round and never three of a kind in a row,
keys and values are as they are meant to be, the map ends up with the keys of the cache in the
order of their use, and the draws tell of every operation whether it finds its key. -/
theorem outcome_by_draws (st : State String String) (draws : List Draws) :
    (generate (viewOf st) draws).operations.length = draws.length ∧
      (∀ op, ¬ [op, op, op] <:+:
        (generate (viewOf st) draws).operations.map Operation.kind) ∧
      (∀ op ∈ (generate (viewOf st) draws).operations, MadeUp st op) ∧
      (generate (viewOf st) draws).shadowCache.keys =
        (keys (after st (generate (viewOf st) draws).operations).store.items).reverse ∧
      ∀ i op d, (generate (viewOf st) draws).operations[i]? = some op → draws[i]? = some d →
        (op.key ∈ keys (after st
            ((generate (viewOf st) draws).operations.take i)).store.items ↔
          Foreseen (after st ((generate (viewOf st) draws).operations.take i)) d op) := by
  have h := generated st draws
  exact ⟨h.length, h.alternates.noThree, h.madeUp, h.mirrors, h.foreseen⟩

end LruCache
