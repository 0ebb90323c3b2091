import LruCache.Cache.Histories
import LruCache.Cache.Serves
import LruCache.Text.Names
import LruCache.Web.Batch
import Mathlib.Logic.Equiv.List
import Mathlib.Logic.Function.Basic

/-!
# The server as a store of texts

The page names keys and values by texts, the cache of the server stores their numbers, and the
registry leads back. As long as the texts of a run have different numbers, the server is a store
of the texts (`Server.Stores`): the texts of all numbers that are stored are registered, so the
state that a body shows is the state of the store.

`get_json_state` and `res.json()` are not in the repository. What the page reads of a body is
taken to be what the body was written for (`Reads`).

Main results:

* `Server.Stores.apply` — an operation of the page does to the server what it does to the store of
  texts.
* `Server.Stores.reads` — what the page reads of a body is the state of the store.
* `Server.Stores.batch` — the same of a batch, state by state.

Deliberate scope limits:

* The format of a body is a parameter, with the assumption that it can be read (`Reads`);
  `digitsPlatform` shows that there is one.
* A page reads numbers as doubles, so the counters are those of the store as long as they are below
  2^53 (`Exact`).
-/

namespace LruCache

open Recency Transition

/-! ## The store -/

/-- The server stores the numbers of the texts that `st` stores, and can name them. -/
structure Server.Stores (hash : String → UInt64) (texts : List String) (server : Server)
    (st : State String String) : Prop where
  numbers : ∃ st', Serves server.cache st' ∧ Matches hash texts st st'
  registered : ∀ p ∈ st.store.items,
    server.registry (codeOf hash p.1) = some p.1 ∧ server.registry (codeOf hash p.2) = some p.2

/-- The texts that an operation brings along. -/
def Operation.texts : Operation → List String
  | .put key value => [key, value]
  | .get key => [key]
  | .remove key => [key]

/-- What the operation does to a store of texts. -/
def Operation.next (st : State String String) : Operation → State String String
  | .put key value => st.put key value
  | .get key => (st.get key).2
  | .remove key => (st.remove key).2

/-- The capacity that `/api/reset` gives to the new cache. -/
def capacityOf (capStr : String) : Nat :=
  (if (stoi capStr).getD 10 ≤ 0 then 10 else (stoi capStr).getD 10).toNat

/-- A reset never asks for a capacity of 0, -/
theorem capacityOf_pos (capStr : String) : 0 < capacityOf capStr := by
  unfold capacityOf
  split <;> omega

/-- nor for one that is no `int`. -/
theorem capacityOf_lt (capStr : String) : capacityOf capStr < 2 ^ 31 := by
  have hlt : (stoi capStr).getD 10 < 2 ^ 31 := by
    cases hstoi : stoi capStr with
    | none => decide
    | some n => exact stoi_lt hstoi
  unfold capacityOf
  split <;> omega

section Stores

variable {hash : String → UInt64} {texts : List String} {server : Server}
variable {st : State String String}

/-- A text that is entered keeps its number, and takes no other text's. -/
theorem registered_update (hdist : Distinguishes hash texts) {registry : Registry}
    {str x : String} (hstr : str ∈ texts) (hx : x ∈ texts)
    (h : registry (codeOf hash x) = some x ∨ x = str) :
    Function.update registry (codeOf hash str) (some str) (codeOf hash x) = some x := by
  by_cases heq : x = str
  · rw [heq]
    exact Function.update_self ..
  · have hne : codeOf hash x ≠ codeOf hash str := fun hcode => heq (hdist x hx str hstr hcode)
    rw [Function.update_of_ne hne]
    exact h.resolve_right heq

/-- Entering texts leaves the store as it is. -/
theorem Server.Stores.enter (h : server.Stores hash texts st) (hdist : Distinguishes hash texts)
    {str : String} (hstr : str ∈ texts) :
    Server.Stores hash texts { server with registry := (toUint64 hash server.registry str).2 }
      st where
  numbers := h.numbers
  registered := by
    rcases h.numbers with ⟨st', _, hmatches⟩
    intro p hp
    have htexts := hmatches.entered p hp
    have hreg := h.registered p hp
    simp only [toUint64_eq]
    exact ⟨registered_update hdist hstr htexts.1 (Or.inl hreg.1),
      registered_update hdist hstr htexts.2 (Or.inl hreg.2)⟩

end Stores

section Operations

variable (platform : Platform) {texts : List String} {server : Server} {st : State String String}

/-- A put of two texts is a put of the store, if their numbers are their own. -/
theorem Server.Stores.put (h : server.Stores platform.hash texts st)
    (hdist : Distinguishes platform.hash texts) {key value : String} (hkey : key ∈ texts)
    (hvalue : value ∈ texts) : ∃ server', server.put platform key value = .ok server' ∧
      server'.Stores platform.hash texts (st.put key value) := by
  rcases h.numbers with ⟨st', hserves, hmatches⟩
  rcases hserves.put (codeOf platform.hash key) (codeOf platform.hash value) with
    ⟨cache, hrun, hserves'⟩
  have hnumbers := hmatches.put hdist hkey hvalue
  -- in either order, both texts are registered, and no other text is lost
  have hregistered : ∀ {a b : String}, a ∈ texts → b ∈ texts → (key = a ∨ key = b) →
      (value = a ∨ value = b) → ∀ p ∈ (st.put key value).store.items,
      (toUint64 platform.hash (toUint64 platform.hash server.registry a).2 b).2
          (codeOf platform.hash p.1) = some p.1 ∧
        (toUint64 platform.hash (toUint64 platform.hash server.registry a).2 b).2
          (codeOf platform.hash p.2) = some p.2 := by
    intro a b ha hb hkeyIs hvalueIs p hp
    simp only [toUint64_eq]
    have hwritten : ∀ x ∈ texts,
        (server.registry (codeOf platform.hash x) = some x ∨ x = a) ∨ x = b →
        Function.update (Function.update server.registry (codeOf platform.hash a) (some a))
          (codeOf platform.hash b) (some b) (codeOf platform.hash x) = some x := by
      intro x hx hcase
      refine registered_update hdist hb hx (hcase.imp_left fun hold => ?_)
      exact registered_update hdist ha hx hold
    have htexts := hnumbers.entered p hp
    rcases State.mem_put hp with rfl | hold
    · exact ⟨hwritten _ htexts.1 (or_assoc.mpr (Or.inr hkeyIs)),
        hwritten _ htexts.2 (or_assoc.mpr (Or.inr hvalueIs))⟩
    · have hreg := h.registered p hold
      exact ⟨hwritten _ htexts.1 (Or.inl (Or.inl hreg.1)),
        hwritten _ htexts.2 (Or.inl (Or.inl hreg.2))⟩
  unfold Server.put
  by_cases horder : platform.valueFirst = true
  · refine ⟨⟨cache, (toUint64 platform.hash (toUint64 platform.hash server.registry value).2
      key).2⟩, ?_, ⟨_, hserves', hnumbers⟩, ?_⟩
    · simp only [if_pos horder, toUint64_eq, hrun]
      rfl
    · exact hregistered hvalue hkey (Or.inr rfl) (Or.inl rfl)
  · refine ⟨⟨cache, (toUint64 platform.hash (toUint64 platform.hash server.registry key).2
      value).2⟩, ?_, ⟨_, hserves', hnumbers⟩, ?_⟩
    · simp only [if_neg horder, toUint64_eq, hrun]
      rfl
    · exact hregistered hkey hvalue (Or.inl rfl) (Or.inr rfl)

/-- A get, likewise. -/
theorem Server.Stores.get (h : server.Stores platform.hash texts st)
    (hdist : Distinguishes platform.hash texts) {key : String} (hkey : key ∈ texts) :
    ∃ server', server.get platform key = .ok server' ∧
      server'.Stores platform.hash texts (st.get key).2 := by
  have hentered := h.enter hdist hkey
  rcases hentered.numbers with ⟨st', hserves, hmatches⟩
  rcases Serves.get hserves (codeOf platform.hash key) with ⟨r, cache, hrun, _, hserves'⟩
  refine ⟨⟨cache, (toUint64 platform.hash server.registry key).2⟩, ?_,
    ⟨_, hserves', hmatches.get hdist hkey⟩, ?_⟩
  · simp only [Server.get, toUint64_eq, hrun]
    rfl
  · exact fun p hp => hentered.registered p (State.mem_get hp)

/-- And a removal. -/
theorem Server.Stores.remove (h : server.Stores platform.hash texts st)
    (hdist : Distinguishes platform.hash texts) {key : String} (hkey : key ∈ texts) :
    ∃ server', server.remove platform key = .ok server' ∧
      server'.Stores platform.hash texts (st.remove key).2 := by
  have hentered := h.enter hdist hkey
  rcases hentered.numbers with ⟨st', hserves, hmatches⟩
  rcases Serves.remove hserves (codeOf platform.hash key) with ⟨cache, hrun, hserves'⟩
  refine ⟨⟨cache, (toUint64 platform.hash server.registry key).2⟩, ?_,
    ⟨_, hserves', hmatches.remove hdist hkey⟩, ?_⟩
  · simp only [Server.remove, toUint64_eq, hrun]
    rfl
  · exact fun p hp => hentered.registered p (State.mem_remove hp)

/-- So is every operation of the page. -/
theorem Server.Stores.apply (h : server.Stores platform.hash texts st)
    (hdist : Distinguishes platform.hash texts) {op : Operation} (hop : op.texts ⊆ texts) :
    ∃ server', op.apply platform server = .ok server' ∧
      server'.Stores platform.hash texts (op.next st) := by
  cases op with
  | put key value =>
    have hboth : key ∈ texts ∧ value ∈ texts := by simpa [Operation.texts] using hop
    exact h.put platform hdist hboth.1 hboth.2
  | get key => exact h.get platform hdist (hop List.mem_cons_self)
  | remove key => exact h.remove platform hdist (hop List.mem_cons_self)

/-- A reset gives a new store, whatever was stored. -/
theorem stores_reset (hash : String → UInt64) (texts : List String) (server : Server)
    (capStr : String) : ∃ server', server.reset capStr = .ok server' ∧
      server'.registry = server.registry ∧ server'.Stores hash texts
        (State.init (capacityOf capStr) (capacityOf_pos capStr)) := by
  rcases Serves.new (capacityOf_pos capStr) (capacityOf_lt capStr) with ⟨cache, hnew, hserves⟩
  refine ⟨{ server with cache := cache }, ?_, rfl, ⟨_, hserves, .init _ _⟩, ?_⟩
  · unfold capacityOf at hnew
    simp only [Server.reset, hnew]
    rfl
  · intro p hp
    cases hp

end Operations

/-! ## What the page reads -/

/-- The state as `app.js` uses it: `nodes` are the pairs of the cache, most recent first. -/
structure StateView where
  capacity : Nat
  size : Nat
  hits : Nat
  misses : Nat
  evictions : Nat
  nodes : List (String × String)
deriving DecidableEq, Repr

/-- `res.json()`, for the bodies that are states and for those that are arrays of states. -/
structure Browser where
  state : String → Option StateView
  array : String → Option (List StateView)

/-- The numbers of the page are doubles, which are exact up to here. -/
def exactBelow : Nat := 2 ^ 53

/-- The page reads what the server has written. -/
structure Reads (platform : Platform) (browser : Browser) : Prop where
  state : ∀ (cache : Cache) (text : UInt64 → String), (∃ st, Serves cache st) →
    cache.hits < exactBelow → cache.misses < exactBelow → cache.evictions < exactBelow →
    browser.state (platform.jsonState cache text) = some
      { capacity := cache.capacity
        size := cache.size
        hits := cache.hits
        misses := cache.misses
        evictions := cache.evictions
        nodes := cache.pairs.map fun p => (text p.1, text p.2) }
  array : ∀ (bodies : List String) (views : List StateView),
    bodies.map browser.state = views.map some →
    browser.array ("[" ++ ",".intercalate bodies ++ "]") = some views

/-- The state of a store of texts. -/
def viewOf (st : State String String) : StateView where
  capacity := st.store.cap
  size := st.store.items.length
  hits := st.hits
  misses := st.misses
  evictions := st.evictions
  nodes := st.store.items

/-- The counters stay exact for `n` more operations. -/
structure Exact (n : Nat) (st : State String String) : Prop where
  hits : st.hits + n < exactBelow
  misses : st.misses + n < exactBelow
  evictions : st.evictions + n < exactBelow

section Views

variable {platform : Platform} {browser : Browser} {texts : List String} {server : Server}
variable {st : State String String} {n : Nat}

/-- Counters that stay exact for longer stay exact. -/
theorem Exact.mono (h : Exact n st) {m : Nat} (hle : m ≤ n) : Exact m st where
  hits := by have := h.hits; omega
  misses := by have := h.misses; omega
  evictions := by have := h.evictions; omega

/-- At first they are 0. -/
theorem Exact.init (hn : n < exactBelow) (cap : Nat) (hpos : 0 < cap) :
    Exact n (State.init cap hpos) := by
  refine ⟨?_, ?_, ?_⟩ <;>
    · show 0 + n < exactBelow
      omega

/-- An operation counts one of the three, or none. -/
theorem Exact.next (h : Exact (n + 1) st) (op : Operation) : Exact n (op.next st) := by
  have hhits := h.hits
  have hmisses := h.misses
  have hevictions := h.evictions
  cases op with
  | put key value =>
    refine ⟨?_, ?_, ?_⟩
    · show st.hits + n < exactBelow
      omega
    · show st.misses + n < exactBelow
      omega
    · show st.evictions + (if st.evicts key then 1 else 0) + n < exactBelow
      split <;> omega
  | get key =>
    rw [Operation.next]
    cases hfound : st.store.items.lookup key with
    | none =>
      rw [State.get_of_none hfound]
      refine ⟨?_, ?_, ?_⟩ <;> dsimp only <;> omega
    | some value =>
      rw [State.get_of_some hfound]
      refine ⟨?_, ?_, ?_⟩ <;> dsimp only <;> omega
  | remove key =>
    refine ⟨?_, ?_, ?_⟩
    · show st.hits + n < exactBelow
      omega
    · show st.misses + n < exactBelow
      omega
    · show st.evictions + n < exactBelow
      omega

/-- A counter that a page can read exactly has not wrapped around. -/
theorem wrap_of_exact {m : Nat} (h : m < exactBelow) : wrap m = m :=
  Nat.mod_eq_of_lt (Nat.lt_trans h (by decide))

/-- The page sees the texts that are stored. -/
theorem Server.Stores.reads (h : server.Stores platform.hash texts st)
    (hreads : Reads platform browser) (hexact : Exact 0 st) :
    browser.state (server.stateText platform) = some (viewOf st) := by
  rcases h.numbers with ⟨st', hserves, hmatches⟩
  have hnames := hmatches.renamed
  have hhits : server.cache.hits = st.hits := by
    rw [Sim.hits hserves, hnames.hits]
    exact wrap_of_exact hexact.hits
  have hmisses : server.cache.misses = st.misses := by
    rw [Sim.misses hserves, hnames.misses]
    exact wrap_of_exact hexact.misses
  have hevictions : server.cache.evictions = st.evictions := by
    rw [Sim.evictions hserves, hnames.evictions]
    exact wrap_of_exact hexact.evictions
  have hnodes : (server.cache.pairs.map fun p =>
      (fromUint64 server.registry p.1, fromUint64 server.registry p.2)) = st.store.items := by
    rw [hserves.holds.pairs_eq, hnames.items, rename, List.map_map]
    refine (List.map_congr_left ?_).trans (List.map_id _)
    intro p hp
    have hreg := h.registered p hp
    exact Prod.ext (fromUint64_of_some hreg.1) (fromUint64_of_some hreg.2)
  have hstate := hreads.state server.cache (fromUint64 server.registry) ⟨st', hserves⟩
    (hhits ▸ hexact.hits) (hmisses ▸ hexact.misses) (hevictions ▸ hexact.evictions)
  rw [Server.stateText, hstate, hnodes, hhits, hmisses, hevictions, hserves.capacity_eq,
    hserves.size_eq, hnames.cap, hnames.length_eq]
  rfl

end Views

/-! ## A format that can be read

`Reads` can be met: a state may be written as one number, and an array as the numbers of its
states. -/

section Format

/-- The state as a number. -/
def StateView.code (view : StateView) : Nat :=
  Encodable.encode (view.capacity, view.size, view.hits, view.misses, view.evictions,
    view.nodes.map fun p => (p.1.toList.map Char.toNat, p.2.toList.map Char.toNat))

/-- Two texts can be told from the numbers of their characters. -/
theorem toNat_texts_injective : Function.Injective fun p : String × String =>
    (p.1.toList.map Char.toNat, p.2.toList.map Char.toNat) := by
  have hchars : Function.Injective fun str : String => str.toList.map Char.toNat := by
    intro a b h
    exact String.toList_inj.mp (List.map_injective_iff.mpr (fun _ _ => Char.toNat_inj.mp) h)
  intro p q h
  exact Prod.ext (hchars (congrArg Prod.fst h)) (hchars (congrArg Prod.snd h))

/-- A state can be told from its code. -/
theorem StateView.code_injective : Function.Injective StateView.code := by
  intro a b h
  have h := Encodable.encode_injective h
  simp only [Prod.mk.injEq] at h
  rcases h with ⟨hcap, hsize, hhits, hmisses, hevictions, hnodes⟩
  have hnodes := List.map_injective_iff.mpr toNat_texts_injective hnodes
  cases a
  cases b
  simp_all

/-- The state as a text of digits. -/
def StateView.digits (view : StateView) : String := toString view.code

/-- The code is written in decimal digits. -/
theorem StateView.toList_digits (view : StateView) :
    view.digits.toList = Nat.toDigits 10 view.code := Nat.toList_repr

/-- So a state can be told from its text, -/
theorem StateView.digits_injective : Function.Injective StateView.digits := by
  intro a b h
  have hdigits : Nat.toDigits 10 a.code = Nat.toDigits 10 b.code := by
    rw [← a.toList_digits, h, b.toList_digits]
  apply StateView.code_injective
  rw [← Nat.ofDigitChars_ten_toDigits (n := a.code), hdigits, Nat.ofDigitChars_ten_toDigits]

/-- An array of states, as the server puts it together. -/
def digitsArray (views : List StateView) : String :=
  "[" ++ ",".intercalate (views.map StateView.digits) ++ "]"

/-- and a list of states from theirs. -/
theorem digitsArray_injective : Function.Injective digitsArray := by
  -- the commas are all in between, so they split the text into its numbers
  have hsplit : ∀ views : List StateView,
      (digitsArray views).toList = '[' :: ([','].intercalate (views.map fun view =>
        view.digits.toList) ++ [']']) := by
    intro views
    simp [digitsArray, String.toList_intercalate, List.map_map, Function.comp_def]
  have hcomma : ∀ views : List StateView, ∀ l ∈ views.map (fun view => view.digits.toList),
      ',' ∉ l := by
    intro views l hl hmem
    rcases List.mem_map.mp hl with ⟨view, _, rfl⟩
    rw [view.toList_digits] at hmem
    exact absurd (Nat.isDigit_of_mem_toDigits (by decide) (by decide) hmem) (by decide)
  have hne : ∀ view : StateView, view.digits.toList ≠ [] := by
    intro view
    rw [view.toList_digits]
    exact Nat.toDigits_ne_nil
  have hnil : ∀ views : List StateView,
      [','].intercalate (views.map fun view => view.digits.toList) = [] → views = [] := by
    intro views h
    cases views with
    | nil => rfl
    | cons view views =>
      have hsplit := List.splitOn_intercalate ',' (hcomma (view :: views)) (by simp)
      rw [h] at hsplit
      exact absurd (List.cons.inj hsplit).1.symm (hne view)
  intro views views' h
  have hlists := hsplit views
  rw [h, hsplit views', List.cons.injEq] at hlists
  have hlists := List.append_cancel_right hlists.2
  by_cases hviews : views = []
  · rw [hviews] at hlists ⊢
    exact (hnil views' hlists).symm
  · have hviews' : views' ≠ [] := by
      intro hnil'
      rw [hnil'] at hlists
      exact hviews (hnil views hlists.symm)
    have hparts := List.splitOn_intercalate ',' (hcomma views) (by simpa using hviews)
    have hparts' := List.splitOn_intercalate ',' (hcomma views') (by simpa using hviews')
    rw [← hlists, hparts'] at hparts
    refine List.map_injective_iff.mpr ?_ hparts.symm
    intro a b hab
    exact StateView.digits_injective (String.toList_inj.mp hab)

/-- A server that answers with digits. -/
def digitsPlatform (hash : String → UInt64) : Platform where
  hash := hash
  jsonState cache text := StateView.digits
    { capacity := cache.capacity
      size := cache.size
      hits := cache.hits
      misses := cache.misses
      evictions := cache.evictions
      nodes := cache.pairs.map fun p => (text p.1, text p.2) }
  readFile _ := ""
  valueFirst := true

/-- A page that reads them. -/
noncomputable def digitsBrowser : Browser where
  state := Function.partialInv StateView.digits
  array := Function.partialInv digitsArray

/-- There is a format from which the page reads what was written. -/
theorem reads_digits (hash : String → UInt64) : Reads (digitsPlatform hash) digitsBrowser where
  state := by
    intro cache text _ _ _ _
    exact Function.partialInv_left StateView.digits_injective _
  array := by
    intro bodies views h
    have hbodies : bodies = views.map StateView.digits := by
      induction bodies generalizing views with
      | nil =>
        cases views with
        | nil => rfl
        | cons view views => cases h
      | cons body bodies ih =>
        cases views with
        | nil => cases h
        | cons view views =>
          rw [List.map_cons, List.map_cons, List.cons.injEq] at h
          have hbody := (StateView.digits_injective.isPartialInv view body).mp h.1
          rw [List.map_cons, ← hbody, ← ih views h.2]
    rw [hbodies]
    exact Function.partialInv_left digitsArray_injective views

end Format

/-! ## Batches of operations -/

/-- An operation of the store, with the state that is shown after it. -/
def Operation.step (op : Operation) (st : State String String) :
    StateView × State String String :=
  (viewOf (op.next st), op.next st)

section Batches

variable {platform : Platform} {browser : Browser} {texts : List String} {server : Server}
variable {st : State String String}

/-- The operations of a batch, each one followed by the state that the page will see. -/
theorem Server.Stores.batchLoop {ops : List Operation} (h : server.Stores platform.hash texts st)
    (hreads : Reads platform browser) (hdist : Distinguishes platform.hash texts)
    (hexact : Exact ops.length st) (hops : ∀ op ∈ ops, op.Plain ∧ op.texts ⊆ texts)
    (jsonArray : String) (first : Bool) : ∃ bodies server',
      batchLoop platform (ops.map Operation.token) jsonArray first server =
        .ok (jsonArray ++ joined first bodies, server') ∧
      bodies.map browser.state = (runTotal Operation.step ops st).1.map some ∧
      server'.Stores platform.hash texts (runTotal Operation.step ops st).2 := by
  induction ops generalizing server st jsonArray first with
  | nil => exact ⟨[], server, by simp [LruCache.batchLoop, joined], rfl, h⟩
  | cons op ops ih =>
    have hop := hops op List.mem_cons_self
    have hexact₁ := hexact.next op
    rcases h.apply platform hdist hop.2 with ⟨server₁, happly, h₁⟩
    have hstate := h₁.reads hreads (hexact₁.mono (Nat.zero_le _))
    rcases ih h₁ hexact₁ (fun op' hop' => hops op' (List.mem_cons_of_mem op hop'))
      ((if first then jsonArray else jsonArray ++ ",") ++ server₁.stateText platform) false with
      ⟨bodies, server', hloop, hviews, h'⟩
    refine ⟨server₁.stateText platform :: bodies, server', ?_, ?_, h'⟩
    · rw [List.map_cons, batchLoop_cons platform hop.1, happly]
      simp only [bind, Except.bind]
      rw [hloop]
      cases first <;> simp [joined, String.append_assoc]
    · rw [List.map_cons, hstate, hviews]
      rfl

/-- A batch is answered with the states after each of its operations. -/
theorem Server.Stores.batch {ops : List Operation} (h : server.Stores platform.hash texts st)
    (hreads : Reads platform browser) (hdist : Distinguishes platform.hash texts)
    (hexact : Exact ops.length st) (hops : ∀ op ∈ ops, op.Plain ∧ op.texts ⊆ texts)
    (rest : String) : ∃ response server',
      serve platform (fetchPost (batchUrl (batchStr ops)) rest) server = .ok (response, server') ∧
      browser.array response.body = some (runTotal Operation.step ops st).1 ∧
      server'.Stores platform.hash texts (runTotal Operation.step ops st).2 := by
  have hplain : ∀ op ∈ ops, op.Plain := fun op hop => (hops op hop).1
  rcases h.batchLoop hreads hdist hexact hops "[" true with ⟨bodies, server', hloop, hviews, h'⟩
  refine ⟨.ok "application/json" ("[" ++ joined true bodies ++ "]"), server', ?_, ?_, h'⟩
  · rw [serve_batch platform server rest (notMem_batchStr hplain (by decide))
      (notMem_batchStr hplain (by decide)), getlines_batchStr hplain, hloop]
    rfl
  · rw [joined_eq]
    exact hreads.array bodies _ hviews

end Batches

end LruCache
