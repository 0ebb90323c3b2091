import LruCache.Cache.Frame
import LruCache.Cache.Start

/-!
# Caches that serve

`Sim` is about calls with one hash function. The programs around the cache use the one of the
cache itself, with its mask; no operation changes the mask, so a cache that does what the
reference does with its own hash function goes on to do so.

Main results:

* `Serves.new` — a new cache serves as the empty reference.
* `Serves.put`, `Serves.get`, `Serves.remove`, `Serves.clear` — a cache that serves goes on to do
  so. These are what the programs around the cache use of it.

Deliberate scope limits:

* Capacities are below 2^31, as in `LruCache.Cache.Refinement`: from there on the constructor does
  not link the nodes (`LruCache.Cache.Capacity`).
-/

namespace LruCache

open Recency

/-- The cache, with its own hash function, does what the reference does. -/
def Serves (cache : Cache) (st : State UInt64 UInt64) : Prop :=
  Sim (hashKey cache.hashMask) cache st

section Serves

variable {cache cache' : Cache} {st st' : State UInt64 UInt64}

/-- The operations do not change the mask, hence not the hash function. -/
theorem Serves.of_sim (h : Sim (hashKey cache.hashMask) cache' st')
    (hshape : SameShape cache cache') : Serves cache' st' := by
  rw [Serves, hshape.mask]
  exact h

/-- `put` with the hash function of the cache itself does what the reference does. -/
theorem Serves.put (h : Serves cache st) (k v : UInt64) :
    ∃ cache', cache.put (hashKey cache.hashMask) k v = .ok cache' ∧
      Serves cache' (st.put k v) := by
  rcases Sim.put h k v with ⟨cache', hrun, hsim⟩
  exact ⟨cache', hrun, .of_sim hsim (put_shape hrun)⟩

/-- `remove` says whether the key was there, as the reference does. -/
theorem Serves.remove (h : Serves cache st) (k : UInt64) :
    ∃ cache', cache.remove (hashKey cache.hashMask) k = .ok ((st.remove k).1, cache') ∧
      Serves cache' (st.remove k).2 := by
  rcases Sim.remove h k with ⟨cache', hrun, hsim⟩
  exact ⟨cache', hrun, .of_sim hsim (remove_shape hrun)⟩

/-- `get` finds what the reference finds. -/
theorem Serves.get (h : Serves cache st) (k : UInt64) :
    ∃ r cache', cache.get (hashKey cache.hashMask) k = .ok (r, cache') ∧
      Returned.got r = returned (.got (st.store.items.lookup k)) ∧ Serves cache' (st.get k).2 := by
  rcases Sim.get h k with ⟨r, cache', hrun, hr, hsim⟩
  rw [State.get_fst] at hr
  exact ⟨r, cache', hrun, hr, .of_sim hsim (get_shape hrun)⟩

/-- `clear` never fails. -/
theorem Serves.clear (h : Serves cache st) :
    ∃ cache', cache.clear = .ok cache' ∧ Serves cache' st.clear := by
  rcases Sim.clear h with ⟨cache', hrun, hsim⟩
  exact ⟨cache', hrun, .of_sim hsim (clear_shape hrun)⟩

/-- The observers show what is stored in the reference. -/
theorem Serves.size_eq (h : Serves cache st) : cache.size = st.store.items.length :=
  h.holds.size_eq

/-- The capacity is that of the reference, which never changes. -/
theorem Serves.capacity_eq (h : Serves cache st) : cache.capacity = st.store.cap := by
  rcases h.holds with ⟨_, _, _, _, hrep, _⟩
  exact hrep.capacity_eq

theorem Serves.empty_eq (h : Serves cache st) : cache.empty = st.store.items.isEmpty := by
  rw [Cache.empty, h.size_eq]
  cases st.store.items <;> rfl

/-- The counters of the cache wrap around, those of the reference do not. -/
theorem Serves.totalRequests_eq (h : Serves cache st) :
    cache.totalRequests = wrap (st.hits + st.misses) := by
  rw [Cache.totalRequests, Sim.hits h, Sim.misses h]
  simp only [wrap, Nat.mod_add_mod, Nat.add_mod_mod]

/-- A new cache serves, for every capacity with which the table can be built. -/
theorem Serves.new {capacity : Nat} (hpos : 0 < capacity) (hlt : capacity < 2 ^ 31) :
    ∃ cache, Cache.new capacity = .ok cache ∧ Serves cache (State.init capacity hpos) := by
  rcases Sim.new hpos hlt with ⟨cache, hnew, hreal, hsim⟩
  exact ⟨cache, hnew, hsim _ hreal⟩

end Serves

end LruCache
