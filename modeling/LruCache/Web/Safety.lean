import LruCache.Cache.Serves
import LruCache.Lib.Transition
import LruCache.Web.Model

/-!
# The server never faults

Whatever the requests are, a server with a sound cache answers them all, and keeps a sound cache.
A capacity that a request asks for is an `int`, so it is small enough for the constructor.

Main results:

* `serve_sound` — every request is answered, without a fault, and leaves a sound cache.
* `serve_run_sound` — so is every sequence of requests.

Deliberate scope limits:

* Allocation succeeds. The code dies of an uncaught `std::bad_alloc` if there is no memory for the
  cache that a reset asks for.
-/

namespace LruCache

open Recency Transition

/-- The cache does what some reference does. -/
def Server.Sound (server : Server) : Prop := ∃ st, Serves server.cache st

section Safety

variable (platform : Platform) {server : Server}

/-- A put is carried out, whatever the two texts are. -/
theorem Server.Sound.put (h : server.Sound) (key val : String) :
    ∃ server', server.put platform key val = .ok server' ∧ server'.Sound := by
  rcases h with ⟨st, h⟩
  unfold Server.put
  split
  rename_i k v registry _
  rcases h.put k v with ⟨cache, hrun, h'⟩
  exact ⟨⟨cache, registry⟩, by rw [hrun]; rfl, _, h'⟩

/-- A get as well. -/
theorem Server.Sound.get (h : server.Sound) (key : String) :
    ∃ server', server.get platform key = .ok server' ∧ server'.Sound := by
  rcases h with ⟨st, h⟩
  unfold Server.get
  rcases toUint64 platform.hash server.registry key with ⟨k, registry⟩
  rcases h.get k with ⟨r, cache, hrun, _, h'⟩
  exact ⟨⟨cache, registry⟩, by simp only [hrun]; rfl, _, h'⟩

/-- And a removal. -/
theorem Server.Sound.remove (h : server.Sound) (key : String) :
    ∃ server', server.remove platform key = .ok server' ∧ server'.Sound := by
  rcases h with ⟨st, h⟩
  unfold Server.remove
  rcases toUint64 platform.hash server.registry key with ⟨k, registry⟩
  rcases h.remove k with ⟨cache, hrun, h'⟩
  exact ⟨⟨cache, registry⟩, by simp only [hrun]; rfl, _, h'⟩

/-- `std::stoi` reads an `int`, and throws at more. -/
theorem stoi_lt {str : String} {n : Int} (h : stoi str = some n) : n < 2 ^ 31 := by
  have hvalue : ∀ (digits : List Char) (value : Int), (if digits = [] then none
      else if value < -(2 ^ 31) ∨ 2 ^ 31 - 1 < value then none else some value) = some n →
      n < 2 ^ 31 := by
    intro digits value h
    split at h
    · cases h
    · split at h
      · cases h
      · cases h
        omega
  exact hvalue _ _ h

/-- A reset builds a cache of a positive capacity below 2^31, whatever was there before. -/
theorem Server.sound_reset (server : Server) (capStr : String) :
    ∃ server', server.reset capStr = .ok server' ∧ server'.Sound := by
  have hcap : ∀ cap : Int, cap < 2 ^ 31 →
      0 < (if cap ≤ 0 then 10 else cap).toNat ∧ (if cap ≤ 0 then 10 else cap).toNat < 2 ^ 31 := by
    intro cap hlt
    split <;> omega
  have hlt : (stoi capStr).getD 10 < 2 ^ 31 := by
    cases hstoi : stoi capStr with
    | none => decide
    | some n => exact stoi_lt hstoi
  rcases hcap _ hlt with ⟨hpos, hlt⟩
  rcases Serves.new hpos hlt with ⟨cache, hnew, h'⟩
  refine ⟨{ server with cache := cache }, ?_, _, h'⟩
  simp only [Server.reset, hnew]
  rfl

/-- An operation of a batch that cannot be read is skipped. -/
theorem Server.Sound.token (h : server.Sound) (token : String) :
    ∃ server', server.token platform token = .ok server' ∧ server'.Sound := by
  unfold Server.token
  split
  · exact ⟨server, rfl, h⟩
  · dsimp only
    split
    · exact h.put platform _ _
    · exact h.get platform _
    · exact h.remove platform _
    · exact ⟨server, rfl, h⟩

/-- The loop over the operations ends with their last one. -/
theorem Server.Sound.batchLoop (h : server.Sound) (tokens : List String) (jsonArray : String)
    (first : Bool) : ∃ text server',
      batchLoop platform tokens jsonArray first server = .ok (text, server') ∧ server'.Sound := by
  induction tokens generalizing jsonArray first server with
  | nil => exact ⟨jsonArray, server, rfl, h⟩
  | cons token tokens ih =>
    rw [LruCache.batchLoop]
    split
    · exact ih h jsonArray first
    · rcases h.token platform token with ⟨server', hrun, h'⟩
      rw [hrun]
      exact ih h' _ _

/-- A request is answered, and leaves a sound server. -/
def Responds (result : Except Fault (Response × Server)) : Prop :=
  ∃ response server', result = .ok (response, server') ∧ server'.Sound

/-- The pages and files are sent without the cache. -/
theorem Server.Sound.responds (h : server.Sound) (response : Response) :
    Responds (.ok (response, server)) :=
  ⟨response, server, rfl, h⟩

/-- A branch that changes the server and answers with its state. -/
theorem responds_jsonResponse {result : Except Fault Server}
    (h : ∃ server', result = .ok server' ∧ server'.Sound) :
    Responds (do
      let server ← result
      return (server.jsonResponse platform, server)) := by
  rcases h with ⟨server', rfl, h'⟩
  exact h'.responds (server'.jsonResponse platform)

/-- Every request is answered, and leaves a sound server. -/
theorem serve_sound (h : server.Sound) (request : String) :
    Responds (serve platform request server) := by
  unfold serve
  refine iteInduction (fun _ => h.responds _) fun _ => ?_
  refine iteInduction (fun _ => h.responds _) fun _ => ?_
  refine iteInduction (fun _ => h.responds _) fun _ => ?_
  refine iteInduction (fun _ => h.responds _) fun _ => ?_
  refine iteInduction (fun _ => ?put) fun _ => ?_
  case put =>
    apply responds_jsonResponse
    split
    · exact h.put platform _ _
    · exact ⟨server, rfl, h⟩
  refine iteInduction (fun _ => ?get) fun _ => ?_
  case get =>
    apply responds_jsonResponse
    split
    · exact h.get platform _
    · exact ⟨server, rfl, h⟩
  refine iteInduction (fun _ => ?remove) fun _ => ?_
  case remove =>
    apply responds_jsonResponse
    split
    · exact h.remove platform _
    · exact ⟨server, rfl, h⟩
  refine iteInduction (fun _ => responds_jsonResponse platform (server.sound_reset _)) fun _ => ?_
  refine iteInduction (fun _ => ?batch) fun _ => h.responds _
  rcases h.batchLoop platform (getlines (getQueryParam (requestPath request) "ops") '|') "[" true
    with ⟨text, server', hrun, h'⟩
  exact ⟨_, server', by simp only [hrun]; rfl, h'⟩

/-- Any number of requests is answered. -/
theorem serve_run_sound (h : server.Sound) (requests : List String) :
    ∃ responses server', run (serve platform) requests server = .ok (responses, server') ∧
      server'.Sound :=
  run_ok (fun request _ h => serve_sound platform h request) requests h

end Safety

end LruCache
