import LruCache.Async.Benchmark

/-!
# The benchmark's invariant

Where the program is in its three loops says what it has asked and how many answers it has
polled. The GETs that are not answered are in the inbox, in the worker's hands and in the outbox.

Main results:

* `BenchInv.step`: a turn of either thread keeps the invariant;
* `BenchInv.polled_le_replies`: what was polled are the first of the right answers;
* `BenchInv.fits`: the GETs begun fit into the two queues and the worker's hands.

Deliberate scope limits:

* The queues are the atomic ones of `LruCache.Async.Model`. That they are those of the code for
  `q + 1 < 2^64` is said where the results are stated (`LruCache.Async.BenchmarkEnds`).
-/

namespace LruCache

open BoundedFifo Recency Transition

/-! ## Where the program and the cache are -/

/-- The requests of the calls that were begun. -/
def BenchPoint.begun (C n : Nat) : BenchPoint → List CacheRequest
  | .warming i => warmUp i
  | .blasting i => script C i
  | .receiving _ => script C n
  | .finished => script C n

/-- The number of answers that were polled. -/
def BenchPoint.received (n : Nat) : BenchPoint → Nat
  | .warming _ => 0
  | .blasting _ => 0
  | .receiving received => received
  | .finished => n

/-- A loop counter is at most its bound; past the second loop all GETs have gone through. -/
def BenchPoint.InRange (C n q : Nat) : BenchPoint → Prop
  | .warming i => i ≤ C
  | .blasting i => i ≤ n
  | .receiving received => received ≤ n ∧ n ≤ 2 * q + 1
  | .finished => n ≤ 2 * q + 1

/-- The client is not in a call of `async_put` or `async_get`. -/
def BenchPoint.Calls (client : Client) : BenchPoint → Prop
  | .warming _ => client ≠ .joining
  | .blasting _ => client ≠ .joining
  | .receiving _ => client = .idle
  | .finished => client.holds = []

/-- The program's place in its loops, the requests and answers that go with it, and the state of
the cache between them. -/
structure BenchInv (hash : UInt64 → Nat) (C n q : Nat) (c₀ : Cache) (s : Bench) : Prop where
  async : AsyncInv hash c₀ q s.async
  begun : s.async.submitted = s.point.begun C n
  received : s.async.polled.length = s.point.received n
  in_range : s.point.InRange C n q
  calls : s.point.Calls s.async.client
  running : s.point ≠ .finished → s.async.running = true

/-- What a step of the client does, one constructor for each way through the program. -/
inductive ClientMoves (C n q : Nat) (s : Bench) : Bench → Prop
  | put {i : Nat} : s.async.client = .idle → s.point = .warming i → i < C →
      ClientMoves C n q s
        { async := s.async.submit (asyncPut (.ofNat i) (.ofNat (i * 10)))
          point := .warming (i + 1) }
  | warmed : s.async.client = .idle → s.point = .warming C →
      ClientMoves C n q s { s with point := .blasting 0 }
  | get {i : Nat} : s.async.client = .idle → s.point = .blasting i → i < n →
      ClientMoves C n q s
        { async := s.async.submit (asyncGet (.ofNat i) (.ofNat (i % C)))
          point := .blasting (i + 1) }
  | blasted : s.async.client = .idle → s.point = .blasting n →
      ClientMoves C n q s { s with point := .receiving 0 }
  | push {req : CacheRequest} : s.async.client = .pushing req → s.async.inbox.length < q →
      ClientMoves C n q s
        { s with async := { s.async with inbox := s.async.inbox ++ [req], client := .idle } }
  | spin {req : CacheRequest} : s.async.client = .pushing req → q ≤ s.async.inbox.length →
      ClientMoves C n q s s
  | poll {received : Nat} {res : CacheResponse} {outbox : List CacheResponse} :
      s.async.client = .idle → s.point = .receiving received → received < n →
      s.async.outbox = res :: outbox →
      ClientMoves C n q s
        { async := { s.async with outbox := outbox, polled := s.async.polled ++ [res] }
          point := .receiving (received + 1) }
  | empty {received : Nat} : s.async.client = .idle → s.point = .receiving received →
      received < n → s.async.outbox = [] → ClientMoves C n q s s
  | finish : s.async.client = .idle → s.point = .receiving n →
      ClientMoves C n q s { s with point := .finished }
  | destroy : s.async.client = .idle → s.point = .finished →
      ClientMoves C n q s
        { s with async := { s.async with running := false, client := .joining } }
  | joining : s.async.client = .joining → ClientMoves C n q s s

section Inv

variable {hash : UInt64 → Nat} {C n q : Nat} {c₀ : Cache} {s s' : Bench}

/-- A poll of an empty outbox changes nothing. -/
theorem clientStep_poll_nil {t : AsyncState} (hclient : t.client = .idle) (hout : t.outbox = []) :
    clientStep q .pollResponse t = t := by
  rw [clientStep_call hclient]
  rcases t with ⟨cache, inbox, outbox⟩
  cases hout
  simp

/-- The turns of the program, by the point at which it is. -/
theorem BenchInv.client_moves (h : BenchInv hash C n q c₀ s) :
    ClientMoves C n q s (benchClient C n q s) := by
  have hrange := h.in_range
  rcases s with ⟨async, point⟩
  unfold benchClient
  cases hclient : async.client with
  | idle =>
    simp only
    cases point with
    | warming i =>
      simp only
      split
      · rename_i hi
        rw [clientStep_call hclient]
        exact .put hclient rfl hi
      · have hi : i = C := Nat.le_antisymm hrange (by omega)
        subst hi
        exact .warmed hclient rfl
    | blasting i =>
      simp only
      split
      · rename_i hi
        rw [clientStep_call hclient]
        exact .get hclient rfl hi
      · have hi : i = n := Nat.le_antisymm hrange (by omega)
        subst hi
        exact .blasted hclient rfl
    | receiving received =>
      simp only
      split
      · rename_i hlt
        cases hout : async.outbox with
        | nil =>
          rw [clientStep_poll_nil hclient hout]
          exact .empty hclient rfl hlt hout
        | cons res outbox =>
          rw [clientStep_call hclient, hout]
          exact .poll hclient rfl hlt hout
      · have hi : received = n := Nat.le_antisymm hrange.1 (by omega)
        subst hi
        exact .finish hclient rfl
    | finished =>
      simp only
      rw [clientStep_call hclient]
      exact .destroy hclient rfl
  | pushing req =>
    simp only
    rcases Nat.lt_or_ge async.inbox.length q with hlt | hfull
    · rw [clientStep_push hclient hlt]
      exact .push hclient hlt
    · rw [clientStep_spin hclient hfull]
      exact .spin hclient hfull
  | joining =>
    simp only
    rw [clientStep_joining hclient]
    exact .joining hclient

/-- The client's step of the cache, if the move is one. -/
theorem ClientMoves.async (h : ClientMoves C n q s s') :
    s'.async = s.async ∨ ∃ call, clientStep q call s.async = s'.async := by
  cases h with
  | put hc _ _ => exact Or.inr ⟨.asyncPut _ _, clientStep_call hc _⟩
  | get hc _ _ => exact Or.inr ⟨.asyncGet _ _, clientStep_call hc _⟩
  | push hc hlt => exact Or.inr ⟨.pollResponse, clientStep_push hc hlt _⟩
  | poll hc _ _ hout =>
    refine Or.inr ⟨.pollResponse, ?_⟩
    rw [clientStep_call hc, hout]
    rfl
  | destroy hc _ => exact Or.inr ⟨.destroy, clientStep_call hc _⟩
  | warmed | blasted | spin | empty | finish | joining => exact Or.inl rfl

/-- The worker has one request or one answer in its hands at most. -/
theorem Worker.hands_le (w : Worker) : w.holds.length + w.answers.length ≤ 1 := by
  cases w <;> simp [Worker.holds, Worker.answers]

end Inv

/-! ## Counting GETs -/

section Count

variable {hash : UInt64 → Nat} {C n q : Nat} {c₀ : Cache} {s s' : Bench}

/-- What has been begun is the first part of what the program asks. -/
theorem begun_le_script {point : BenchPoint} (h : point.InRange C n q) :
    point.begun C n <+: script C n := by
  cases point with
  | warming i =>
    rw [BenchPoint.begun, ← warmUp_take (show i ≤ C from h)]
    exact (List.take_prefix i _).trans (List.prefix_append _ _)
  | blasting i =>
    rw [BenchPoint.begun, script, script, ← blast_take (show i ≤ n from h)]
    exact List.prefix_append_right_inj _ |>.mpr (List.take_prefix i _)
  | receiving received => exact List.prefix_refl _
  | finished => exact List.prefix_refl _

/-- So is what has been applied. -/
theorem BenchInv.applied_le_script (h : BenchInv hash C n q c₀ s) :
    s.async.applied <+: script C n := by
  refine List.IsPrefix.trans ?_ (begun_le_script h.in_range)
  rw [← h.begun, h.async.accounted]
  simp only [List.append_assoc]
  exact List.prefix_append _ _

variable (hpos : 0 < C) (hlt : C < 2 ^ 31) (hsim : Sim hash c₀ (State.init C hpos))

include hlt hsim

/-- What was polled are the first of the right answers. -/
theorem BenchInv.polled_le_replies (h : BenchInv hash C n q c₀ s) :
    s.async.polled <+: replies C n := by
  rcases h.async.served with ⟨out, c, _, hseq, hans, _⟩
  have hle := h.applied_le_script.length_le
  rw [script, List.length_append, warmUp_length, blast_length] at hle
  have hout := served_part hpos hlt hsim h.applied_le_script hseq
  have hprefix : out <+: replies C n := by
    rw [hout, ← replies_take (show s.async.applied.length - C ≤ n by omega)]
    exact List.take_prefix _ _
  refine List.IsPrefix.trans ?_ hprefix
  rcases hans with ⟨hall, _⟩ | ⟨_, _, _, res, hall⟩
  · rw [← hall, List.append_assoc]
    exact List.prefix_append _ _
  · rw [← hall, List.append_assoc]
    exact List.prefix_append _ _

/-- The GETs among the requests applied are those with an answer. -/
theorem BenchInv.counted (h : BenchInv hash C n q c₀ s) (hrun : s.async.running = true) :
    s.async.polled.length + s.async.outbox.length + s.async.worker.answers.length =
        s.async.applied.length - C ∧
      (s.point.begun C n).length = s.async.applied.length + s.async.worker.holds.length +
        s.async.inbox.length + s.async.client.holds.length := by
  rcases h.async.whereabouts hrun with ⟨hwhere, c, hseq⟩
  have hlen := congrArg List.length (served_part hpos hlt hsim h.applied_le_script hseq)
  constructor
  · simpa only [List.length_append, replies_length] using hlen
  · rw [← h.begun, hwhere]
    simp only [List.length_append]

/-- The second loop ends only if all GETs fit into the queues and the worker's hands. -/
theorem BenchInv.fits (h : BenchInv hash C n q c₀ s) (hclient : s.async.client = .idle)
    (hpoint : s.point = .blasting n) : n ≤ 2 * q + 1 := by
  have hrun := h.running (by rw [hpoint]; exact BenchPoint.noConfusion)
  have hpolled := h.received
  rcases h.counted hpos hlt hsim hrun with ⟨hanswers, hrequests⟩
  have hhands := s.async.worker.hands_le
  have hin := h.async.inbox_le
  have hout := h.async.outbox_le
  rw [hpoint, hclient] at hrequests
  rw [hpoint] at hpolled
  simp only [BenchPoint.begun, BenchPoint.received, script, List.length_append, warmUp_length,
    blast_length, Client.holds, List.length_nil] at hrequests hpolled
  omega

/-- A turn of the program keeps the invariant, one case for each of its moves. -/
theorem BenchInv.client_step (h : BenchInv hash C n q c₀ s) :
    BenchInv hash C n q c₀ (benchClient C n q s) := by
  have hmoves := h.client_moves
  generalize benchClient C n q s = s' at hmoves ⊢
  have hasync : AsyncInv hash c₀ q s'.async := by
    rcases hmoves.async with hsame | hcall
    · rw [hsame]
      exact h.async
    · exact h.async.step (Or.inl hcall)
  have hbegun := h.begun
  have hreceived := h.received
  have hrange := h.in_range
  have hcalls := h.calls
  have hrunning := h.running
  cases hmoves with
  | put hclient hpoint hi =>
    rw [hpoint] at hbegun hreceived hrunning
    refine ⟨hasync, ?_, hreceived, hi, Client.noConfusion, fun _ => hrunning BenchPoint.noConfusion⟩
    show s.async.submitted ++ [_] = warmUp _
    rw [hbegun, warmUp_succ]
    rfl
  | warmed hclient hpoint =>
    rw [hpoint] at hbegun hreceived hrunning
    refine ⟨hasync, ?_, hreceived, Nat.zero_le n, ?_, fun _ => hrunning BenchPoint.noConfusion⟩
    · exact hbegun.trans (List.append_nil _).symm
    · show s.async.client ≠ .joining
      rw [hclient]
      exact Client.noConfusion
  | get hclient hpoint hi =>
    rw [hpoint] at hbegun hreceived hrunning
    refine ⟨hasync, ?_, hreceived, hi, Client.noConfusion, fun _ => hrunning BenchPoint.noConfusion⟩
    show s.async.submitted ++ [_] = script _ _
    rw [hbegun, BenchPoint.begun, script, script, blast_succ, List.append_assoc]
  | blasted hclient hpoint =>
    have hfits := h.fits hpos hlt hsim hclient hpoint
    rw [hpoint] at hbegun hreceived hrunning
    exact ⟨hasync, hbegun, hreceived, ⟨Nat.zero_le n, hfits⟩, hclient,
      fun _ => hrunning BenchPoint.noConfusion⟩
  | push hclient hroom =>
    refine ⟨hasync, hbegun, hreceived, hrange, ?_, hrunning⟩
    show s.point.Calls .idle
    cases hpoint : s.point with
    | warming i => exact Client.noConfusion
    | blasting i => exact Client.noConfusion
    | receiving received => rfl
    | finished => rfl
  | spin _ _ => exact h
  | poll hclient hpoint hi hout =>
    rw [hpoint] at hbegun hreceived hrunning hrange
    refine ⟨hasync, hbegun, ?_, ⟨hi, hrange.2⟩, hclient, fun _ => hrunning BenchPoint.noConfusion⟩
    show (s.async.polled ++ [_]).length = _ + 1
    rw [List.length_append, hreceived]
    rfl
  | empty _ _ _ _ => exact h
  | finish hclient hpoint =>
    rw [hpoint] at hbegun hreceived hrange
    refine ⟨hasync, hbegun, hreceived, hrange.2, ?_, fun hno => absurd rfl hno⟩
    show s.async.client.holds = []
    rw [hclient]
    rfl
  | destroy hclient hpoint =>
    rw [hpoint] at hbegun hreceived hrange
    refine ⟨hasync, ?_, ?_, ?_, ?_, ?_⟩
    · rw [hpoint]
      exact hbegun
    · rw [hpoint]
      exact hreceived
    · rw [hpoint]
      exact hrange
    · rw [hpoint]
      rfl
    · intro hno
      exact absurd hpoint hno
  | joining _ => exact h

/-- So does a turn of either thread. -/
theorem BenchInv.step {t : Thread} (hs : BenchStep hash C n q t s s')
    (h : BenchInv hash C n q c₀ s) : BenchInv hash C n q c₀ s' := by
  cases hs with
  | client => exact h.client_step hpos hlt hsim
  | worker hrun =>
    rcases (workerMoves_of_step hrun).keeps with ⟨hsub, hpolled, hrunning, hclient⟩
    refine ⟨h.async.step (Or.inr hrun), ?_, ?_, h.in_range, ?_, ?_⟩
    · exact hsub.trans h.begun
    · rw [hpolled]
      exact h.received
    · rw [hclient]
      exact h.calls
    · intro hno
      exact hrunning.trans (h.running hno)

end Count

end LruCache
