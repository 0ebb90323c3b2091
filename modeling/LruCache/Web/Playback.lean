import LruCache.Web.Generator

/-!
# What the log of a simulation says

`runSimulation` shows a log in which every operation of the batch has a verdict: hit or miss,
deleted or not found, updated, inserted or evicted. It works them out from the states before and
after, and they are right (`simulation_log`): the log is the one that the store itself would
write.

Main results:

* `verdict_eq` — the verdict on an operation is what becomes of it in the store.
* `simulation_log` — after any requests of the page, the log of a simulation is that of the store,
  and its map of keys ends up with the stored ones in their order of use.

Deliberate scope limits:

* Texts are as the address carries them, and have at most 32 characters, so that a batch of 100
  operations fits into the buffer of the server; a longer stored key would have it cut.
* The texts that were sent, and those that a simulation may bring in (`simTexts`), have different
  numbers, and the counters stay below 2^53.
* No request of another page comes between the two of a simulation. What the page itself may do in
  between is in `LruCache.Web.Screen`.
-/

namespace LruCache

open Recency Transition

/-! ## Verdicts -/

/-- What becomes of an operation. -/
def outcome (st : State String String) : Operation → String × LogLevel
  | .get key => if key ∈ keys st.store.items then (" -> HIT", .ok) else (" -> MISS", .err)
  | .remove key =>
      if key ∈ keys st.store.items then (" -> DELETED", .ok) else (" -> NOT_FOUND", .err)
  | .put key _ =>
      if key ∈ keys st.store.items then (" -> UPDATED", .info)
      else if st.evicts key then (" -> EVICTED_AND_INSERTED", .warn)
      else (" -> INSERTED", .ok)

/-- The log of the store. -/
def logOf : State String String → List GenEntry → List SimEntry
  | _, [] => []
  | st, entry :: entries =>
      { state := viewOf (entry.operation.next st)
        logMsg := entry.msg ++ (outcome st entry.operation).1
        logLvl := (outcome st entry.operation).2 } :: logOf (entry.operation.next st) entries

section Verdicts

variable {st : State String String}

/-- The nodes of a state have the keys that are stored. -/
theorem any_nodes (st : State String String) (key : String) :
    ((viewOf st).nodes.any fun n => n.1 == key) = true ↔ key ∈ keys st.store.items := by
  rw [List.any_eq_true]
  constructor
  · rintro ⟨p, hp, heq⟩
    rw [← beq_iff_eq.mp heq]
    exact List.mem_map_of_mem hp
  · intro hmem
    rcases List.mem_map.mp hmem with ⟨p, hp, rfl⟩
    exact ⟨p, hp, beq_self_eq_true _⟩

/-- The hits go up exactly if the key was stored. -/
theorem hits_next_get (st : State String String) (key : String) :
    (viewOf (Operation.next st (.get key))).hits > (viewOf st).hits ↔
      key ∈ keys st.store.items := by
  cases hfound : st.store.items.lookup key with
  | none =>
    have hno := lookup_eq_none.mp hfound
    rw [Operation.next, State.get_of_none hfound]
    exact ⟨fun hlt => absurd hlt (Nat.lt_irrefl st.hits), fun hmem => absurd hmem hno⟩
  | some value =>
    have hyes : key ∈ keys st.store.items := lookup_isSome.mp (by rw [hfound]; rfl)
    rw [Operation.next, State.get_of_some hfound]
    exact ⟨fun _ => hyes, fun _ => Nat.lt_succ_self st.hits⟩

/-- The verdict of the page, from the states before and after, is the outcome. -/
theorem verdict_eq (st : State String String) (op : Operation) :
    verdict st.store.cap (viewOf st) (viewOf (op.next st)) op = outcome st op := by
  cases op with
  | get key =>
    rw [verdict, outcome]
    exact if_congr (hits_next_get st key) rfl rfl
  | remove key =>
    rw [verdict, outcome]
    exact if_congr (any_nodes st key) rfl rfl
  | put key value =>
    rw [verdict, outcome]
    by_cases hk : key ∈ keys st.store.items
    · rw [if_pos ((any_nodes st key).mpr hk), if_pos hk]
    · rw [if_neg (mt (any_nodes st key).mp hk), if_neg hk]
      -- the store is never longer than its capacity
      have hfull : (viewOf st).nodes.length ≥ st.store.cap ↔ st.evicts key :=
        ⟨fun hge => ⟨hk, Nat.le_antisymm st.store.length_le hge⟩,
          fun hev => Nat.le_of_eq hev.2.symm⟩
      exact if_congr hfull rfl rfl

/-- With the states of the batch, the whole log is that of the store. -/
theorem playback_eq (entries : List GenEntry) (st : State String String) :
    playback st.store.cap (viewOf st) entries
      (runTotal Operation.step (entries.map GenEntry.operation) st).1 =
        some (logOf st entries) := by
  induction entries generalizing st with
  | nil => rfl
  | cons entry entries ih =>
    have ih := ih (entry.operation.next st)
    rw [entry.operation.cap_next st] at ih
    have hviews : (runTotal Operation.step ((entry :: entries).map GenEntry.operation) st).1 =
        viewOf (entry.operation.next st) ::
          (runTotal Operation.step (entries.map GenEntry.operation)
            (entry.operation.next st)).1 := rfl
    rw [hviews, playback, ih, verdict_eq]
    rfl

end Verdicts

/-! ## The request -/

section Request

/-- The thirty names can stand in a batch, and are short. -/
theorem plain_possibleKeys {k : String} (hk : k ∈ possibleKeys) : Plain k ∧ k.length ≤ 32 := by
  have hall : possibleKeys.all (fun k => k ≠ "" && k.length ≤ 32 &&
      k.toList.all fun ch => ch ≠ '&' && ch ≠ '=' && ch ≠ ' ' && ch ≠ ',' && ch ≠ '|') = true := by
    decide
  have hk := List.all_eq_true.mp hall k hk
  simp only [Bool.and_eq_true, decide_eq_true_eq, List.all_eq_true] at hk
  rcases hk with ⟨⟨hne, hlen⟩, hchars⟩
  exact ⟨⟨⟨fun h => (hchars _ h).1.1.1.1 rfl, fun h => (hchars _ h).1.1.1.2 rfl,
    fun h => (hchars _ h).1.1.2 rfl⟩, hne, fun h => (hchars _ h).1.2 rfl,
    fun h => (hchars _ h).2 rfl⟩, hlen⟩

/-- So can the values, which have four digits. -/
theorem plain_value {n : Nat} (hn : n < 10000) :
    Plain (toString n) ∧ (toString n).length ≤ 4 := by
  have hdigit : ∀ ch ∈ (toString n).toList, ch.isDigit = true := by
    intro ch hch
    have hlist : (toString n).toList = Nat.toDigits 10 n := Nat.toList_repr
    rw [hlist] at hch
    exact Nat.isDigit_of_mem_toDigits (by decide) (by decide) hch
  have hnot : ∀ ch, ch.isDigit = false → ch ∉ (toString n).toList := by
    intro ch hfalse hmem
    rw [hdigit ch hmem] at hfalse
    cases hfalse
  refine ⟨⟨⟨hnot _ (by decide), hnot _ (by decide), hnot _ (by decide)⟩, ?_,
    hnot _ (by decide), hnot _ (by decide)⟩, ?_⟩
  · intro h
    have hlist : (toString n).toList = Nat.toDigits 10 n := Nat.toList_repr
    rw [h] at hlist
    exact Nat.toDigits_ne_nil hlist.symm
  · exact (Nat.length_repr_le_iff (by decide)).mpr hn

/-- The stored keys are as the page sends them, and not too long. -/
def Sendable (st : State String String) : Prop :=
  ∀ k ∈ keys st.store.items, Plain k ∧ k.length ≤ 32

variable {st : State String String} {op : Operation}

/-- An operation of a simulation is at most as long as the longest key and a value allow. -/
theorem MadeUp.plain (h : MadeUp st op) (hst : Sendable st) :
    op.Plain ∧ op.token.length ≤ 39 := by
  have hkey : Plain op.key ∧ op.key.length ≤ 32 := h.key.elim plain_possibleKeys (hst _)
  cases op with
  | put key value =>
    rcases h.value value rfl with ⟨n, _, hlt, rfl⟩
    have hvalue := plain_value hlt
    refine ⟨⟨hkey.1, hvalue.1⟩, ?_⟩
    have hlen : key.length ≤ 32 := hkey.2
    have hp : "P,".length = 2 := rfl
    have hc : ",".length = 1 := rfl
    rw [Operation.token, String.length_append, String.length_append, String.length_append]
    omega
  | get key =>
    refine ⟨hkey.1, ?_⟩
    have hlen : key.length ≤ 32 := hkey.2
    have hg : "G,".length = 2 := rfl
    rw [Operation.token, String.length_append]
    omega
  | remove key =>
    refine ⟨hkey.1, ?_⟩
    have hlen : key.length ≤ 32 := hkey.2
    have hr : "R,".length = 2 := rfl
    rw [Operation.token, String.length_append]
    omega

/-- A batch is no longer than its operations, with a bar behind each. -/
theorem length_batchStr {ops : List Operation} (h : ∀ op ∈ ops, op.token.length ≤ 39) :
    (batchStr ops).length ≤ 40 * ops.length := by
  induction ops with
  | nil => exact Nat.le_refl 0
  | cons op ops ih =>
    have hop := h op List.mem_cons_self
    have hops := ih fun op' hop' => h op' (List.mem_cons_of_mem op hop')
    have hbar : "|".length = 1 := rfl
    rw [batchStr, String.length_append, String.length_append, List.length_cons]
    omega

/-- The batch of a simulation of the page fits into the buffer of the server. -/
theorem batch_fits {ops : List Operation} (h : ∀ op ∈ ops, op.token.length ≤ 39)
    (hlen : ops.length ≤ 100) : (PageRequest.batch ops).Fits := by
  have hbatch := length_batchStr h
  have hurl : "/api/batch?ops=".length = 15 := by decide
  rw [PageRequest.Fits, PageRequest.url, batchUrl, String.length_append]
  omega

end Request

/-! ## The simulation -/

/-- The texts that a simulation may bring in. -/
def simTexts : List String :=
  possibleKeys ++ (List.range 9000).map fun n => toString (n + 1000)

/-- The values of a simulation are among its texts. -/
theorem value_mem_simTexts {n : Nat} (hle : 1000 ≤ n) (hlt : n < 10000) :
    toString n ∈ simTexts := by
  refine List.mem_append_right _ (List.mem_map.mpr ⟨n - 1000, List.mem_range.mpr (by omega), ?_⟩)
  rw [Nat.sub_add_cancel hle]

section Simulation

variable {platform : Platform} {browser : Browser} {texts : List String} {server : Server}
variable {st : State String String} {draws : List Draws}

/-- The keys of an operation are names, or stored already. -/
theorem MadeUp.texts_subset {op : Operation} (h : MadeUp st op)
    (hstored : ∀ k ∈ keys st.store.items, k ∈ texts) (hsim : simTexts ⊆ texts) :
    op.texts ⊆ texts := by
  have hkey : op.key ∈ texts :=
    h.key.elim (fun hname => hsim (List.mem_append_left _ hname)) (hstored _)
  intro str hstr
  cases op with
  | put key value =>
    rcases List.mem_cons.mp hstr with rfl | hvalue
    · exact hkey
    · rw [List.mem_singleton.mp hvalue]
      rcases h.value value rfl with ⟨n, hle, hlt, rfl⟩
      exact hsim (value_mem_simTexts hle hlt)
  | get key =>
    rw [List.mem_singleton.mp hstr]
    exact hkey
  | remove key =>
    rw [List.mem_singleton.mp hstr]
    exact hkey

/-- The first entry of the log. -/
def captured (st : State String String) : SimEntry where
  state := viewOf st
  logMsg := "[SIM] Captured existing cache state (CAP=" ++ toString st.store.cap ++ ")"
  logLvl := .info

/-- A simulation on a server that stores what the store of texts does. Its two requests find the
same store, as no other request comes in between. -/
theorem Server.Stores.simulation (h : server.Stores platform.hash texts st)
    (hreads : Reads platform browser) (hdist : Distinguishes platform.hash texts)
    (hsim : simTexts ⊆ texts) (hsend : Sendable st) (hexact : Exact draws.length st)
    (hlen : draws.length ≤ 100) (headers : String × String) : ∃ server',
      runSimulation platform browser draws headers server = .ok (some
        { generator := generate (viewOf st) draws
          simHistory := captured st :: logOf st (generate (viewOf st) draws).genHistory },
            server') ∧
      server'.Stores platform.hash texts
        (after st (generate (viewOf st) draws).operations) := by
  have hmade := generated st draws
  have hplain : ∀ op ∈ (generate (viewOf st) draws).operations,
      op.Plain ∧ op.token.length ≤ 39 := fun op hop => (hmade.madeUp op hop).plain hsend
  have hstored : ∀ k ∈ keys st.store.items, k ∈ texts := by
    rcases h.numbers with ⟨_, _, hmatches⟩
    exact hmatches.keys_entered
  have hops : ∀ op ∈ (generate (viewOf st) draws).operations, op.Plain ∧ op.texts ⊆ texts :=
    fun op hop => ⟨(hplain op hop).1, (hmade.madeUp op hop).texts_subset hstored hsim⟩
  have hfits : (PageRequest.batch (generate (viewOf st) draws).operations).Fits :=
    batch_fits (fun op hop => (hplain op hop).2) (by rw [hmade.length]; exact hlen)
  -- the state arrives, and then the states of the batch
  have hplain_state : PageRequest.state.Plain := trivial
  have hfits_state : PageRequest.state.Fits := by
    unfold PageRequest.Fits
    decide
  have hstate := h.exchange hreads hdist (hexact.mono (Nat.zero_le _)) hplain_state
    (List.nil_subset _) hfits_state headers.1
  rcases hstate with ⟨server₁, hrun₁, h₁⟩
  rcases hfits.recv headers.2 with ⟨rest, hrecv⟩
  have htext : ∀ headers, (PageRequest.batch (generate (viewOf st) draws).operations).text headers =
      fetchPost (batchUrl (generate (viewOf st) draws).batchStr) headers := by
    intro headers
    rw [hmade.batch]
    rfl
  rw [htext, htext] at hrecv
  have hexact₁ : Exact (generate (viewOf st) draws).operations.length st := by
    rw [hmade.length]
    exact hexact
  rcases Server.Stores.batch h₁ hreads hdist hexact₁ hops rest with
    ⟨response, server', hserve, hviews, h'⟩
  rw [← hmade.batch] at hserve
  rw [runTotal_step] at h'
  refine ⟨server', ?_, h'⟩
  have hlog : (browser.array response.body).bind
      (playback (viewOf st).capacity (viewOf st) (generate (viewOf st) draws).genHistory) =
        some (logOf st (generate (viewOf st) draws).genHistory) := by
    have hplayback := playback_eq (generate (viewOf st) draws).genHistory st
    rw [hviews, Option.bind_some]
    exact hplayback
  rw [runSimulation, hrun₁]
  simp only [bind, Except.bind, pure, Except.pure, PageRequest.step, simulate, hrecv, hserve]
  rw [hlog]
  rfl

end Simulation

end LruCache
