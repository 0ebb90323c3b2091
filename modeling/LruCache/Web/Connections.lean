import LruCache.Lib.Framing
import LruCache.Web.Page

/-!
# Connections

The rest of `main` in `src/web_server.cpp`: the loop that accepts connections, receives into a
buffer of 4095 bytes and sends the answer in as many calls of `send` as it takes. Any of the calls
may fail. What the other side gets is the beginning of the answer, and from the `Content-Length`
it can tell whether it is all of it (`connections_served`).

Main results:

* `sendAll_spec` — the loop around `send` sends the beginning of the response, without reading past
  it.
* `connections_served` — from the start of the server on, whatever arrives and whichever calls
  fail.

Deliberate scope limits:

* Allocation succeeds. A reset to a capacity for which there is no memory ends the server with an
  uncaught `std::bad_alloc`.
* `to_send` is an `int`: all of a response is sent only if it is shorter than 2^31 bytes, and a
  longer one is cut, which its `Content-Length` shows.
* The answer to a path that does not exist has no `Content-Length`; the end of the connection is
  the end of it.
-/

namespace LruCache

open Recency Transition

/-! ## Sending -/

/-- What the calls of `send` return, the `i`-th one being asked to send `len` bytes: a failure, or
the number of bytes that it took. -/
structure Sends where
  result : Nat → Int → Int
  le : ∀ i len, result i len ≤ len

/-- No call fails. -/
def Sends.Succeed (sends : Sends) : Prop := ∀ i len, 0 < len → 0 < sends.result i len

/-- The loop around `send`, with what it has sent before its `i`-th call. -/
def sendLoop (response : String) (toSend : Int) (sends : Sends) :
    Nat → Nat → Int → String → Except Fault String
  | 0, _, _, _ => .error .diverges
  | fuel + 1, i, totalSent, out =>
      if totalSent < toSend then
        let sent := sends.result i (toSend - totalSent)
        if sent ≤ 0 then .ok out
        else if response.length < totalSent + sent then .error .outOfRange
        else sendLoop response toSend sends fuel (i + 1) (totalSent + sent)
          (out ++ substr response totalSent.toNat (some sent.toNat))
      else .ok out

/-- All that is sent of a response; `to_send` is an `int`. -/
def sendAll (response : String) (sends : Sends) : Except Fault String :=
  sendLoop response (toInt32 response.length) sends (response.length + 1) 0 0 ""

/-! ## Connections -/

/-- What a turn of the loop of `main` meets: `accept` fails, or `recv` does, or bytes arrive in the
buffer. -/
inductive Arrival where
  | refused
  | closed
  | request (buffer : String) (sends : Sends)

/-- The request that has arrived, if any has. -/
def Arrival.request? : Arrival → Option String
  | .request buffer _ => some (recv buffer)
  | _ => none

/-- The answer to a request, and what is sent of it. -/
structure Delivery where
  response : Response
  sends : Sends
  sent : String

/-- One turn of the loop of `main`. -/
def turn (platform : Platform) (arrival : Arrival) (server : Server) :
    Except Fault (Option Delivery × Server) :=
  match arrival with
  | .refused => .ok (none, server)
  | .closed => .ok (none, server)
  | .request buffer sends => do
      let (response, server) ← serve platform (recv buffer) server
      let sent ← sendAll response.text sends
      return (some { response := response, sends := sends, sent := sent }, server)

/-! ## What is sent -/

/-- A length that is cast to `int` does not grow. -/
theorem toInt32_le (n : Nat) : toInt32 n ≤ n := by
  unfold toInt32 Int.bmod
  dsimp only
  split <;> omega

section Send

variable {response : String} {toSend : Int} {sends : Sends}

/-- What is sent next continues what was sent. -/
theorem take_append_substr (response : String) (n m : Nat) :
    String.ofList (response.toList.take n) ++ substr response n (some m) =
      .ofList (response.toList.take (n + m)) := by
  apply String.toList_inj.mp
  rw [String.toList_append, substr, String.toList_ofList, String.toList_ofList,
    String.toList_ofList, List.take_add]

/-- The loop ends; it has sent the beginning of the response, and all of it if no call failed. -/
theorem sendLoop_spec (sends : Sends) (hle : toSend ≤ response.length) (fuel i totalSent : Nat)
    (hfuel : (toSend - totalSent).toNat < fuel) :
    ∃ out, sendLoop response toSend sends fuel i totalSent
        (.ofList (response.toList.take totalSent)) = .ok out ∧
      out.toList <+: response.toList ∧
      (sends.Succeed → toSend = response.length → out = response) := by
  -- on the turns that are left, each of which sends a byte at least
  induction fuel generalizing i totalSent with
  | zero => omega
  | succ fuel ih =>
    rw [sendLoop]
    have hbegin : (String.ofList (response.toList.take totalSent)).toList <+: response.toList := by
      rw [String.toList_ofList]
      exact List.take_prefix totalSent _
    by_cases hmore : (totalSent : Int) < toSend
    · rw [if_pos hmore]
      by_cases hfails : sends.result i (toSend - totalSent) ≤ 0
      · simp only [if_pos hfails]
        refine ⟨_, rfl, hbegin, ?_⟩
        intro hsucceed _
        have hpos := hsucceed i (toSend - totalSent) (by omega)
        omega
      · have hlen := sends.le i (toSend - totalSent)
        rcases Int.eq_ofNat_of_zero_le (show 0 ≤ sends.result i (toSend - totalSent) by omega) with
          ⟨sent, hsent⟩
        rw [hsent] at hfails hlen
        simp only [hsent, if_neg hfails, Int.toNat_natCast]
        rw [if_neg (by omega), take_append_substr]
        exact ih (i + 1) (totalSent + sent) (by omega)
    · rw [if_neg hmore]
      refine ⟨_, rfl, hbegin, ?_⟩
      intro _ hall
      rw [List.take_of_length_le (by rw [String.length_toList]; omega), String.ofList_toList]

/-- All calls of `send` together send the beginning of a response, and all of it if none fails and
its length fits into an `int`. -/
theorem sendAll_spec (response : String) (sends : Sends) :
    ∃ out, sendAll response sends = .ok out ∧ out.toList <+: response.toList ∧
      (sends.Succeed → response.length < 2 ^ 31 → out = response) := by
  have hle := toInt32_le response.length
  rcases sendLoop_spec sends hle (response.length + 1) 0 0 (by omega) with
    ⟨out, hrun, hbegin, hall⟩
  refine ⟨out, hrun, hbegin, ?_⟩
  intro hsucceed hlt
  exact hall hsucceed (toInt32_of_lt hlt)

end Send

/-! ## What every request keeps -/

/-- The four types that an answer can have. -/
def contentTypes : List String :=
  ["text/html", "text/css", "application/javascript", "application/json"]

/-- The answer is a page of one of the four types, or says that nothing was found. -/
def Response.Typed : Response → Prop
  | .ok contentType _ => contentType ∈ contentTypes
  | .notFound => True

/-- The members of the cache that the server calls keep `I`, and so does a new cache. -/
structure Preserved (platform : Platform) (I : Server → Prop) : Prop where
  put : ∀ {server server' : Server} key val, I server →
    server.put platform key val = .ok server' → I server'
  get : ∀ {server server' : Server} key, I server → server.get platform key = .ok server' →
    I server'
  remove : ∀ {server server' : Server} key, I server →
    server.remove platform key = .ok server' → I server'
  reset : ∀ {server server' : Server} capStr, I server → server.reset capStr = .ok server' →
    I server'

/-- An answer has a type, and the server after it has `I`. -/
def Outcome (I : Server → Prop) (result : Except Fault (Response × Server)) : Prop :=
  ∀ response server', result = .ok (response, server') → response.Typed ∧ I server'

section Kept

variable {platform : Platform} {I : Server → Prop} {server : Server}

/-- An answer without the cache. -/
theorem outcome_ok {contentType : String} (htype : contentType ∈ contentTypes) (h : I server)
    (body : String) : Outcome I (.ok (.ok contentType body, server)) := by
  intro response server' hrun
  cases hrun
  exact ⟨htype, h⟩

/-- The state of the server after one of its functions. -/
theorem outcome_jsonResponse {result : Except Fault Server}
    (h : ∀ server', result = .ok server' → I server') : Outcome I (do
      let server ← result
      return (server.jsonResponse platform, server)) := by
  intro response server' hrun
  rcases bind_eq_ok hrun with ⟨server₁, hone, hend⟩
  cases hend
  refine ⟨?_, h _ hone⟩
  show "application/json" ∈ contentTypes
  decide

/-- An operation of a batch. -/
theorem Preserved.token (hkeeps : Preserved platform I) (h : I server) {token : String}
    {server' : Server} (hrun : server.token platform token = .ok server') : I server' := by
  unfold Server.token at hrun
  split at hrun
  · cases hrun
    exact h
  · dsimp only at hrun
    split at hrun
    · exact hkeeps.put _ _ h hrun
    · exact hkeeps.get _ h hrun
    · exact hkeeps.remove _ h hrun
    · cases hrun
      exact h

/-- All operations of a batch, by induction. -/
theorem Preserved.batchLoop (hkeeps : Preserved platform I) (h : I server) {tokens : List String}
    {jsonArray text : String} {first : Bool} {server' : Server}
    (hrun : batchLoop platform tokens jsonArray first server = .ok (text, server')) :
    I server' := by
  induction tokens generalizing jsonArray first server with
  | nil =>
    cases hrun
    exact h
  | cons token tokens ih =>
    rw [LruCache.batchLoop] at hrun
    split at hrun
    · exact ih h hrun
    · rcases bind_eq_ok hrun with ⟨server₁, hone, hrest⟩
      exact ih (hkeeps.token h hone) hrest

/-- What the members keep, every request keeps. -/
theorem Preserved.serve (hkeeps : Preserved platform I) (h : I server) (request : String) :
    Outcome I (serve platform request server) := by
  unfold LruCache.serve
  refine iteInduction (fun _ => outcome_ok (by decide) h _) fun _ => ?_
  refine iteInduction (fun _ => outcome_ok (by decide) h _) fun _ => ?_
  refine iteInduction (fun _ => outcome_ok (by decide) h _) fun _ => ?_
  refine iteInduction (fun _ => outcome_ok (by decide) h _) fun _ => ?_
  refine iteInduction (fun _ => outcome_jsonResponse ?put) fun _ => ?_
  case put =>
    intro server' hrun
    split at hrun
    · exact hkeeps.put _ _ h hrun
    · cases hrun
      exact h
  refine iteInduction (fun _ => outcome_jsonResponse ?get) fun _ => ?_
  case get =>
    intro server' hrun
    split at hrun
    · exact hkeeps.get _ h hrun
    · cases hrun
      exact h
  refine iteInduction (fun _ => outcome_jsonResponse ?remove) fun _ => ?_
  case remove =>
    intro server' hrun
    split at hrun
    · exact hkeeps.remove _ h hrun
    · cases hrun
      exact h
  refine iteInduction (fun _ => outcome_jsonResponse fun server' => hkeeps.reset _ h) fun _ => ?_
  refine iteInduction (fun _ => ?batch) fun _ => ?other
  case batch =>
    intro response server' hrun
    rcases bind_eq_ok hrun with ⟨⟨text, server₁⟩, hbatch, hend⟩
    cases hend
    refine ⟨?_, hkeeps.batchLoop h hbatch⟩
    show "application/json" ∈ contentTypes
    decide
  case other =>
    intro response server' hrun
    cases hrun
    exact ⟨trivial, h⟩

/-- The registry has for each number a text with that number. -/
theorem preserved_faithful (platform : Platform) :
    Preserved platform fun server => server.registry.Faithful platform.hash where
  put := by
    intro server server' key val h hrun
    unfold Server.put at hrun
    split at hrun
    rename_i k v registry hcodes
    rcases bind_eq_ok hrun with ⟨cache, _, hend⟩
    cases hend
    split at hcodes
    · cases hcodes
      exact (h.toUint64 val).toUint64 key
    · cases hcodes
      exact (h.toUint64 key).toUint64 val
  get := by
    intro server server' key h hrun
    rcases bind_eq_ok hrun with ⟨⟨_, cache⟩, _, hend⟩
    cases hend
    exact h.toUint64 key
  remove := by
    intro server server' key h hrun
    rcases bind_eq_ok hrun with ⟨⟨_, cache⟩, _, hend⟩
    cases hend
    exact h.toUint64 key
  reset := by
    intro server server' capStr h hrun
    rcases bind_eq_ok hrun with ⟨cache, _, hend⟩
    cases hend
    exact h

end Kept

/-! ## Reading the answer -/

/-- `"Content-Length: "`. -/
def lengthField : List Char :=
  ['C', 'o', 'n', 't', 'e', 'n', 't', '-', 'L', 'e', 'n', 'g', 't', 'h', ':', ' ']

/-- The head of an answer. -/
def headLines (contentType body : String) : List (List Char) :=
  ["HTTP/1.1 200 OK".toList, "Connection: close".toList,
    lengthField ++ (toString body.length).toList, ("Content-Type: " ++ contentType).toList]

section Read

variable {contentType body : String}

/-- The response is a head and a body, with an empty line between them. -/
theorem toList_text (contentType body : String) : (Response.ok contentType body).text.toList =
    Framing.write (headLines contentType body) body.toList := by
  have hstatus : "HTTP/1.1 200 OK\r\nConnection: close\r\n" =
      "HTTP/1.1 200 OK" ++ "\r\n" ++ "Connection: close" ++ "\r\n" :=
    String.toList_inj.mp (by simp)
  have hempty : "\r\n\r\n" = "\r\n" ++ "\r\n" := String.toList_inj.mp (by simp)
  have hcrlf : "\r\n".toList = Framing.crlf := by simp [Framing.crlf]
  have hlength : "Content-Length: ".toList = lengthField := by simp [lengthField]
  unfold Response.text Framing.write headLines
  dsimp only
  rw [hstatus, hempty, ← hcrlf, ← hlength]
  -- the texts as variables: nothing depends on what is in them
  generalize "HTTP/1.1 200 OK" = status, "Connection: close" = close, "\r\n" = crlf,
    "Content-Length: " = length, "Content-Type: " = type
  simp only [String.toList_append, List.flatMap_cons, List.flatMap_nil, List.append_assoc,
    List.nil_append]

/-- The head says how long the body is. -/
theorem headLines_length (contentType body : String) :
    (Framing.field lengthField (headLines contentType body)).bind Framing.number =
      some body.toList.length := by
  have hfield : Framing.field lengthField (headLines contentType body) =
      some (toString body.length).toList := by
    have hstarts : lengthField.isPrefixOf
        (lengthField ++ (toString body.length).toList) = true := by
      rw [List.isPrefixOf_iff_prefix]
      exact List.prefix_append ..
    have hstatus : lengthField.isPrefixOf "HTTP/1.1 200 OK".toList = false := by decide
    have hclose : lengthField.isPrefixOf "Connection: close".toList = false := by decide
    simp only [Framing.field, headLines, List.findSome?_cons, hstatus, hclose, hstarts,
      Bool.false_eq_true, if_false, if_true, List.drop_left]
  have hdigits : (toString body.length).toList = Nat.toDigits 10 body.length := Nat.toList_repr
  rw [hfield, Option.bind_some, hdigits, Framing.number_toDigits, String.length_toList]

/-- And it can be read from the response again. -/
theorem announces_headLines (body : String) (htype : contentType ∈ contentTypes) :
    Framing.Announces lengthField (headLines contentType body) body.toList.length where
  proper := by
    have hdigits : '\n' ∉ (toString body.length).toList := by
      intro hmem
      have hlist : (toString body.length).toList = Nat.toDigits 10 body.length := Nat.toList_repr
      rw [hlist] at hmem
      exact absurd (Nat.isDigit_of_mem_toDigits (by decide) (by decide) hmem) (by decide)
    have htype : '\n' ∉ contentType.toList := by
      simp only [contentTypes, List.mem_cons, List.not_mem_nil, or_false] at htype
      rcases htype with rfl | rfl | rfl | rfl <;> simp
    intro line hline
    simp only [headLines, List.mem_cons, List.not_mem_nil, or_false] at hline
    rcases hline with rfl | rfl | rfl | rfl
    · constructor <;> simp
    · constructor <;> simp
    · constructor
      · simp [lengthField]
      · rw [List.mem_append, not_or]
        exact ⟨by decide, hdigits⟩
    · constructor
      · simp
      · rw [String.toList_append, List.mem_append, not_or]
        exact ⟨by simp, htype⟩
  length := headLines_length contentType body

/-- What a delivery must be like. The body is read if and only if all of the answer has been
sent. -/
structure Delivery.Correct (d : Delivery) : Prop where
  beginning : d.sent.toList <+: d.response.text.toList
  whole : d.sends.Succeed → d.response.text.length < 2 ^ 31 → d.sent = d.response.text
  read : ∀ contentType body, d.response = .ok contentType body →
    Framing.readBody lengthField d.sent.toList =
      if d.sent = d.response.text then some body.toList else none

/-- What is sent of a response is a beginning of it, from which the other side can tell whether it
is all. -/
theorem delivery_correct {response : Response} (htyped : response.Typed) (sends : Sends) :
    ∃ sent, sendAll response.text sends = .ok sent ∧
      Delivery.Correct { response := response, sends := sends, sent := sent } := by
  rcases sendAll_spec response.text sends with ⟨sent, hrun, hbegin, hwhole⟩
  refine ⟨sent, hrun, hbegin, hwhole, ?_⟩
  rintro contentType body rfl
  have hannounces := announces_headLines body htyped
  dsimp only at hbegin ⊢
  split
  · rename_i hall
    rw [hall, toList_text]
    exact Framing.readBody_write hannounces
  · rename_i hcut
    rw [toList_text] at hbegin
    refine Framing.readBody_cut hannounces hbegin ?_
    intro heq
    rw [← toList_text] at heq
    exact hcut (String.toList_inj.mp heq)

end Read

/-! ## The loop -/

section Turn

variable (platform : Platform) {server : Server}

/-- A result is passed on. -/
theorem ok_bind {ε α β : Type} (a : α) (f : α → Except ε β) : (Except.ok a >>= f) = f a := rfl

/-- The deliveries among what the turns have done. -/
def deliveries (out : List (Option Delivery)) : List Delivery := out.filterMap id

/-- By induction over the turns. -/
theorem connections_run (hsound : server.Sound) (hfaithful : server.registry.Faithful platform.hash)
    (arrivals : List Arrival) : ∃ out server',
      run (turn platform) arrivals server = .ok (out, server') ∧
      run (serve platform) (arrivals.filterMap Arrival.request?) server =
        .ok ((deliveries out).map Delivery.response, server') ∧
      server'.Sound ∧ server'.registry.Faithful platform.hash ∧
      ∀ d ∈ deliveries out, d.Correct := by
  induction arrivals generalizing server with
  | nil =>
    refine ⟨[], server, rfl, rfl, hsound, hfaithful, ?_⟩
    intro d hd
    cases hd
  | cons arrival arrivals ih =>
    -- a connection without a request: the server does not notice
    have hskip : turn platform arrival server = .ok (none, server) →
        Arrival.request? arrival = none → ∃ out server',
        run (turn platform) (arrival :: arrivals) server = .ok (out, server') ∧
        run (serve platform) ((arrival :: arrivals).filterMap Arrival.request?) server =
          .ok ((deliveries out).map Delivery.response, server') ∧
        server'.Sound ∧ server'.registry.Faithful platform.hash ∧
        ∀ d ∈ deliveries out, d.Correct := by
      intro hturn hnone
      rcases ih hsound hfaithful with ⟨out, server', hrun, hserve, h'⟩
      refine ⟨none :: out, server', ?_, ?_, h'⟩
      · rw [run_cons_ok hturn, hrun]
        rfl
      · rw [List.filterMap_cons_none hnone, hserve]
        rfl
    cases arrival with
    | refused => exact hskip rfl rfl
    | closed => exact hskip rfl rfl
    | request buffer sends =>
      rcases serve_sound platform hsound (recv buffer) with ⟨response, server₁, hone, hsound₁⟩
      rcases (preserved_faithful platform).serve hfaithful (recv buffer) response server₁ hone with
        ⟨htyped, hfaithful₁⟩
      rcases delivery_correct htyped sends with ⟨sent, hsend, hcorrect⟩
      rcases ih hsound₁ hfaithful₁ with ⟨out, server', hrun, hserve, hsound', hfaithful', hall⟩
      have hturn : turn platform (.request buffer sends) server =
          .ok (some { response := response, sends := sends, sent := sent }, server₁) := by
        rw [turn, hone, ok_bind]
        dsimp only
        rw [hsend, ok_bind]
        rfl
      have hrequest : Arrival.request? (.request buffer sends) = some (recv buffer) := rfl
      refine ⟨some { response := response, sends := sends, sent := sent } :: out, server', ?_, ?_,
        hsound', hfaithful', ?_⟩
      · rw [run_cons_ok hturn, hrun]
        rfl
      · rw [List.filterMap_cons_some hrequest, run_cons_ok hone, hserve]
        rfl
      · intro d hd
        rcases List.mem_cons.mp hd with rfl | hd
        · exact hcorrect
        · exact hall d hd

/-- From the start of the server on, whatever arrives and whichever calls of `accept`, `recv` or
`send` fail, as long as memory can be allocated for the caches: no fault, the cache is that of the
requests received, a connection that failed having no effect, and of each answer the beginning is
sent. All of it is sent if no call of `send` fails and it is shorter than 2^31 bytes, and otherwise
the other side can tell from the `Content-Length`, if there is one, that something is missing. -/
theorem connections_served (arrivals : List Arrival) : ∃ server out server',
    Server.start = .ok server ∧
      run (turn platform) arrivals server = .ok (out, server') ∧
      run (serve platform) (arrivals.filterMap Arrival.request?) server =
        .ok ((deliveries out).map Delivery.response, server') ∧
      server'.Sound ∧ server'.registry.Faithful platform.hash ∧
      ∀ d ∈ deliveries out, d.Correct := by
  have hpos : 0 < 10 := by decide
  rcases Serves.new hpos (by decide) with ⟨cache, hnew, hserves⟩
  have hstart : Server.start = .ok { cache := cache, registry := Registry.empty } := by
    simp only [Server.start, hnew]
    rfl
  have hsound : Server.Sound { cache := cache, registry := Registry.empty } := ⟨_, hserves⟩
  rcases connections_run platform hsound Registry.faithful_empty arrivals with ⟨out, server', h⟩
  exact ⟨_, out, server', hstart, h⟩

end Turn

end LruCache
