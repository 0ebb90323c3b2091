import LruCache.Lib.Renaming
import LruCache.Text.Registry

/-!
# Texts and their numbers

The simulator and the web server both store the numbers of texts. As long as different texts have
different numbers, the numbers are names of the texts: a reference that stores the texts, and one
that stores their numbers, do the same (`Matches`).

Main results:

* `Matches.put`, `Matches.get`, `Matches.remove` — the reference that stores texts and the one that
  stores their numbers stay in step.
* `Matches.lookup`, `Matches.removed` — and answer alike.

Deliberate scope limits:

* The numbers are those of `codeOf`: the number that a text begins with, or else its hash value.
  That no two of the texts have the same one is an assumption (`Distinguishes`); what happens
  without it is in `LruCache.Cli.Separation`.
-/

namespace LruCache

open Recency

/-- Different texts that were entered have different numbers. -/
def Distinguishes (hash : String → UInt64) (typed : List String) : Prop :=
  ∀ x ∈ typed, ∀ y ∈ typed, codeOf hash x = codeOf hash y → x = y

instance (hash : String → UInt64) (typed : List String) : Decidable (Distinguishes hash typed) :=
  List.decidableBAll (fun x => ∀ y ∈ typed, codeOf hash x = codeOf hash y → x = y) typed

/-- What distinguishes more texts distinguishes fewer. -/
theorem Distinguishes.anti {hash : String → UInt64} {typed typed' : List String}
    (h : Distinguishes hash typed') (hstarts : typed <+: typed') : Distinguishes hash typed :=
  fun x hx y hy => h x (hstarts.subset hx) y (hstarts.subset hy)

/-- The numbers are names of the texts that were typed, in the sense of `LruCache.Lib.Renaming`. -/
theorem Distinguishes.injOn {hash : String → UInt64} {typed : List String}
    (h : Distinguishes hash typed) : Set.InjOn (codeOf hash) {str | str ∈ typed} :=
  fun x hx y hy => h x hx y hy

/-! ## Stores -/

/-- The numbers of texts that were entered are stored in place of the texts. -/
structure Matches (hash : String → UInt64) (typed : List String) (st : State String String)
    (st' : State UInt64 UInt64) : Prop where
  renamed : Renamed (codeOf hash) (codeOf hash) st st'
  entered : ∀ p ∈ st.store.items, p.1 ∈ typed ∧ p.2 ∈ typed

section Stores

variable {hash : String → UInt64} {typed : List String} {st : State String String}
variable {st' : State UInt64 UInt64} {key value : String}

/-- Both references begin empty. -/
theorem Matches.init (capacity : Nat) (hpos : 0 < capacity) :
    Matches hash typed (State.init capacity hpos) (State.init capacity hpos) where
  renamed := .init capacity hpos
  entered := by
    intro p hp
    cases hp

/-- They do after a clear as well; what was typed remains. -/
theorem Matches.clear (h : Matches hash typed st st') : Matches hash typed st.clear st'.clear where
  renamed := h.renamed.clear
  entered := by
    intro p hp
    cases hp

/-- Later on, more has been typed. -/
theorem Matches.mono (h : Matches hash typed st st') {typed' : List String}
    (hstarts : typed <+: typed') : Matches hash typed' st st' where
  renamed := h.renamed
  entered := fun p hp => (h.entered p hp).imp (hstarts.subset ·) (hstarts.subset ·)

/-- Nothing is stored but what was typed. -/
theorem Matches.keys_entered (h : Matches hash typed st st') :
    ∀ x ∈ keys st.store.items, x ∈ {str | str ∈ typed} := by
  intro x hx
  rcases List.mem_map.mp hx with ⟨p, hp, rfl⟩
  exact (h.entered p hp).1

/-- A put of two texts is a put of their numbers. -/
theorem Matches.put (h : Matches hash typed st st') (hdist : Distinguishes hash typed)
    (hkey : key ∈ typed) (hvalue : value ∈ typed) :
    Matches hash typed (st.put key value) (st'.put (codeOf hash key) (codeOf hash value)) where
  renamed := h.renamed.put hdist.injOn h.keys_entered hkey value
  entered := by
    intro p hp
    rcases State.mem_put hp with rfl | hold
    · exact ⟨hkey, hvalue⟩
    · exact h.entered p hold

/-- A get of a text does to the order of use what a get of its number does. -/
theorem Matches.get (h : Matches hash typed st st') (hdist : Distinguishes hash typed)
    (hkey : key ∈ typed) : Matches hash typed (st.get key).2 (st'.get (codeOf hash key)).2 where
  renamed := h.renamed.get hdist.injOn h.keys_entered hkey
  entered := fun p hp => h.entered p (State.mem_get hp)

/-- A removal of a text removes its number. -/
theorem Matches.remove (h : Matches hash typed st st') (hdist : Distinguishes hash typed)
    (hkey : key ∈ typed) :
    Matches hash typed (st.remove key).2 (st'.remove (codeOf hash key)).2 where
  renamed := (h.renamed.remove hdist.injOn h.keys_entered hkey).2
  entered := fun p hp => h.entered p (State.mem_remove hp)

/-- What is found under the number is the number of what is found under the text. -/
theorem Matches.lookup (h : Matches hash typed st st') (hdist : Distinguishes hash typed)
    (hkey : key ∈ typed) : st'.store.items.lookup (codeOf hash key) =
      (st.store.items.lookup key).map (codeOf hash) :=
  h.renamed.lookup hdist.injOn h.keys_entered hkey

/-- Both references say alike whether there was something to remove. -/
theorem Matches.removed (h : Matches hash typed st st') (hdist : Distinguishes hash typed)
    (hkey : key ∈ typed) : (st'.remove (codeOf hash key)).1 = (st.remove key).1 :=
  (h.renamed.remove hdist.injOn h.keys_entered hkey).1

end Stores

end LruCache
