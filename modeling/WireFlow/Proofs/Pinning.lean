import Mathlib.Data.Finset.Card
import WireFlow.PointerMap

/-!
# Pinned maps stay

A handle is an address, and memory is used again: once nobody refers to a map,
a later map may be built in its place. Pinning makes handles last because the
pins refer to every map they hold. So the place of a pinned map is never free,
and no other map can come to be known under its handle.

A registry keeps track of who refers to what. Maps are told apart by the order
in which they were built, since their addresses alone do not tell them apart.
-/

namespace WireFlow

theorem find?_eq_some_of_unique {α : Type} {p : α → Bool} {xs : List α} {x : α} (hx : x ∈ xs)
    (hp : p x = true) (hunique : ∀ y ∈ xs, p y = true → y = x) : xs.find? p = some x := by
  obtain ⟨y, hy⟩ := Option.isSome_iff_exists.mp (List.find?_isSome.mpr ⟨x, hx, hp⟩)
  rw [hy, hunique y (List.mem_of_find?_eq_some hy) (List.find?_some hy)]

/-- A call that pinned a map. -/
structure Pinning where
  /-- The number of the map in order of building. -/
  serial : Nat
  /-- The map as it was then. Its address is the handle that was returned. -/
  map : PlacedMap
deriving DecidableEq

/-- What is known about maps in the course of a process. -/
structure Registry where
  /-- The maps being described, as far as they have come. -/
  sketches : List Bitmap := []
  /-- Every map ever built, whether somebody still refers to it or not. -/
  built : List PlacedMap := []
  /-- The references outside the pins, by number of the map. -/
  held : List Nat := []
  heap : Heap := {}
  /-- The references of the pins, in the order of their entries. -/
  kept : List Nat := []
  /-- The calls that pinned a map, earliest first. -/
  log : List Pinning := []
deriving DecidableEq

namespace Registry

/-- What a process can do with maps. -/
inductive Event where
  | sketch
  | copySketch (i : Nat)
  | addField (i : Nat) (bit : Bool)
  | addFields (i n : Nat) (bit : Bool)
  /-- Build a map as sketched; it is placed at an address that is free. -/
  | build (i : Nat) (a : Address)
  /-- Make one more reference to a map. -/
  | share (serial : Nat)
  /-- Give up a reference to a map. -/
  | drop (serial : Nat)
  | pin (serial : Nat)
  /-- Resolve a handle, which makes one more reference to the map found. -/
  | lookup (handle : Address)
deriving DecidableEq

def address? (s : Registry) (serial : Nat) : Option Address :=
  (s.built[serial]?).map PlacedMap.address

/-- Nobody refers to a map at the address. -/
def free (s : Registry) (a : Address) : Bool :=
  (s.held ++ s.kept).all fun serial => s.address? serial ≠ some a

/-- The map that the pins refer to under a handle. -/
def resolve (s : Registry) (handle : Address) : Option Nat :=
  s.kept.find? fun serial => s.address? serial = some handle

/-- Build a map at an address and hold it. -/
def build (s : Registry) (a : Address) (b : Bitmap) : Registry :=
  let (map, heap) := s.heap.placeAt a b
  { s with built := s.built ++ [map], held := s.built.length :: s.held, heap }

/-- Pin a map. The pins take a reference of their own if they had no entry. -/
def pin (s : Registry) (serial : Nat) (map : PlacedMap) : Registry :=
  { s with
    heap := s.heap.pin map
    kept := if (s.heap.pins.lookup map.address).isSome then s.kept else s.kept ++ [serial]
    log := s.log ++ [⟨serial, map⟩] }

/-- Change a sketch. -/
def draw (s : Registry) (i : Nat) (f : Bitmap → Bitmap) : Option Registry :=
  if i < s.sketches.length then some { s with sketches := s.sketches.modify i f } else none

/-- One thing done. Nothing comes of it if a sketch or a reference is not there,
or if the address of a new map is not free. -/
def step (s : Registry) : Event → Option Registry
  | .sketch => some { s with sketches := s.sketches ++ [.empty] }
  | .copySketch i => (s.sketches[i]?).map fun b => { s with sketches := s.sketches ++ [b] }
  | .addField i bit => s.draw i fun b => b.append bit
  | .addFields i n bit => s.draw i fun b => b.appendMany n bit
  | .build i a => if s.free a then (s.sketches[i]?).map (s.build a) else none
  | .share serial => if serial ∈ s.held then some { s with held := serial :: s.held } else none
  | .drop serial => if serial ∈ s.held then some { s with held := s.held.erase serial } else none
  | .pin serial => if serial ∈ s.held then (s.built[serial]?).map (s.pin serial) else none
  | .lookup handle => some { s with held := (s.resolve handle).toList ++ s.held }

/-- A whole process, from the start. -/
def run (events : List Event) : Option Registry := events.foldlM step {}

/-- What holds at the start and is kept by every event holds after every process. -/
theorem run_induction {P : List Event → Registry → Prop} (start : P [] {})
    (step : ∀ es e s s', P es s → s.step e = some s' → P (es ++ [e]) s')
    {events : List Event} {s : Registry} (hs : run events = some s) : P events s := by
  induction events using List.reverseRecOn generalizing s with
  | nil =>
      cases hs
      exact start
  | append_singleton es e ih =>
      rw [run, List.foldlM_append] at hs
      obtain ⟨s₁, h₁, hs⟩ := Option.bind_eq_some_iff.mp hs
      obtain ⟨s₂, h₂, hs⟩ := Option.bind_eq_some_iff.mp hs
      cases hs
      exact step es e s₁ s (ih h₁) h₂

/-- Somebody refers to the map. -/
def InUse (s : Registry) (serial : Nat) : Prop := serial ∈ s.held ∨ serial ∈ s.kept

/-- What holds between two events. -/
structure Sound (s : Registry) : Prop where
  there : ∀ k, s.InUse k → k < s.built.length
  /-- Two maps that are in use are at different places. -/
  apart : ∀ j k, s.InUse j → s.InUse k → s.address? j = s.address? k → j = k
  entries : s.heap.pins.maps.map some = s.kept.map fun k => s.built[k]?
  nodup : s.kept.Nodup
  logged : ∀ p ∈ s.log, p.serial ∈ s.kept ∧ s.built[p.serial]? = some p.map
  pinned : ∀ k ∈ s.kept, k ∈ s.log.map Pinning.serial

namespace Sound

variable {s s' : Registry} {a : Address} {k : Nat} {m : PlacedMap}

theorem start : Sound {} := by
  refine ⟨?_, ?_, rfl, List.nodup_nil, ?_, ?_⟩ <;> simp [InUse]

theorem mem_pins_iff (h : s.Sound) : m ∈ s.heap.pins.maps ↔ ∃ k ∈ s.kept, s.built[k]? = some m := by
  have hmem : some m ∈ s.heap.pins.maps.map some ↔ some m ∈ s.kept.map fun k => s.built[k]? := by
    rw [h.entries]
  simpa using hmem

/-- The pins hold one map at most for an address. -/
theorem lookup_eq_some (h : s.Sound) (hk : k ∈ s.kept) (hm : s.built[k]? = some m) :
    s.heap.pins.lookup m.address = some m := by
  apply find?_eq_some_of_unique (h.mem_pins_iff.mpr ⟨k, hk, hm⟩) (by simp)
  intro n hn haddress
  obtain ⟨j, hj, hn⟩ := h.mem_pins_iff.mp hn
  have hjk : s.address? j = s.address? k := by
    simpa [address?, hn, hm] using haddress
  rw [h.apart j k (Or.inr hj) (Or.inr hk) hjk, hm] at hn
  exact (Option.some.inj hn).symm

theorem exists_kept_of_lookup (h : s.Sound) (hl : s.heap.pins.lookup a = some m) :
    ∃ k ∈ s.kept, s.built[k]? = some m ∧ m.address = a := by
  have haddress : m.address = a := by simpa using List.find?_some hl
  obtain ⟨k, hk, hm⟩ := h.mem_pins_iff.mp (List.mem_of_find?_eq_some hl)
  exact ⟨k, hk, hm, haddress⟩

theorem resolve_eq_some (h : s.Sound) (hk : k ∈ s.kept) (hm : s.built[k]? = some m) :
    s.resolve m.address = some k := by
  have haddress : s.address? k = some m.address := by simp [address?, hm]
  apply find?_eq_some_of_unique hk (by simpa using haddress)
  intro j hj hja
  exact h.apart j k (Or.inr hj) (Or.inr hk) ((of_decide_eq_true hja).trans haddress.symm)

/-- References can be made to maps in use, and given up. -/
theorem hold (h : s.Sound) {held : List Nat} (hsub : ∀ k ∈ held, s.InUse k) :
    Sound { s with held } := by
  have hsub : ∀ k, InUse { s with held } k → s.InUse k := by
    rintro k (hk | hk)
    · exact hsub k hk
    · exact Or.inr hk
  refine ⟨fun k hk => h.there k (hsub k hk), ?_, h.entries, h.nodup, h.logged, h.pinned⟩
  exact fun j k hj hk => h.apart j k (hsub j hj) (hsub k hk)

/-- A map built at a free address is apart from all maps in use. -/
theorem build (h : s.Sound) (hfree : s.free a = true) (b : Bitmap) : (s.build a b).Sound := by
  have hfree : ∀ k, s.InUse k → s.address? k ≠ some a := by
    simpa [free, InUse, or_imp, forall_and] using hfree
  have huse : ∀ k, (s.build a b).InUse k → k = s.built.length ∨ s.InUse k := by
    simp [InUse, Registry.build, or_assoc]
  have hkeep : ∀ k, s.InUse k → (s.build a b).built[k]? = s.built[k]? := fun k hk =>
    List.getElem?_append_left (h.there k hk)
  have hold : ∀ k, s.InUse k → (s.build a b).address? k = s.address? k := fun k hk => by
    rw [address?, hkeep k hk, address?]
  have hnew : (s.build a b).address? s.built.length = some a := by
    simp [address?, Registry.build, Heap.placeAt]
  refine ⟨?_, ?_, ?_, h.nodup, ?_, h.pinned⟩
  · intro k hk
    have hlength : (s.build a b).built.length = s.built.length + 1 := List.length_append
    rcases huse k hk with rfl | hk
    · omega
    · have := h.there k hk
      omega
  · intro j k hj hk hjk
    rcases huse j hj with rfl | hj
    · rcases huse k hk with rfl | hk
      · rfl
      · rw [hnew, hold k hk] at hjk
        exact absurd hjk.symm (hfree k hk)
    · rcases huse k hk with rfl | hk
      · rw [hnew, hold j hj] at hjk
        exact absurd hjk (hfree j hj)
      · rw [hold j hj, hold k hk] at hjk
        exact h.apart j k hj hk hjk
  · exact h.entries.trans (List.map_congr_left fun k hk => (hkeep k (Or.inr hk)).symm)
  · intro p hp
    obtain ⟨hk, hm⟩ := h.logged p hp
    exact ⟨hk, (hkeep _ (Or.inr hk)).trans hm⟩

/-- Pinning a map that the pins hold changes nothing, and returns its handle. -/
theorem pin_of_kept (h : s.Sound) (hk : k ∈ s.kept) (hm : s.built[k]? = some m) :
    s.pin k m = { s with log := s.log ++ [⟨k, m⟩] } := by
  have hl := h.lookup_eq_some hk hm
  simp only [Registry.pin, Heap.pin, Pins.pin_of_lookup hl, hl, Option.isSome_some, if_true]

theorem pin_of_not_kept (h : s.Sound) (hk : k ∈ s.held) (hm : s.built[k]? = some m)
    (hn : k ∉ s.kept) :
    s.pin k m = { s with
      heap := { s.heap with pins := ⟨s.heap.pins.maps ++ [m]⟩ }
      kept := s.kept ++ [k]
      log := s.log ++ [⟨k, m⟩] } := by
  have hl : s.heap.pins.lookup m.address = none := by
    by_contra hl
    obtain ⟨n, hl⟩ := Option.ne_none_iff_exists'.mp hl
    obtain ⟨j, hj, hjn, haddress⟩ := h.exists_kept_of_lookup hl
    -- the entry is for a map at the place of this one, so it is for this one
    have hjk := h.apart j k (Or.inr hj) (Or.inl hk) (by simp [address?, hjn, hm, haddress])
    exact hn (hjk ▸ hj)
  simp only [Registry.pin, Heap.pin, Pins.pin, hl, Option.isSome_none, Bool.false_eq_true,
    if_false]

theorem pin (h : s.Sound) (hk : k ∈ s.held) (hm : s.built[k]? = some m) : (s.pin k m).Sound := by
  by_cases hkept : k ∈ s.kept
  · rw [h.pin_of_kept hkept hm]
    refine ⟨h.there, h.apart, h.entries, h.nodup, ?_, ?_⟩
    · intro p hp
      rcases List.mem_append.mp hp with hp | hp
      · exact h.logged p hp
      · cases List.mem_singleton.mp hp
        exact ⟨hkept, hm⟩
    · intro j hj
      have := h.pinned j hj
      simp [this]
  · rw [h.pin_of_not_kept hk hm hkept]
    have huse : ∀ j, j ∈ s.held ∨ j ∈ s.kept ++ [k] → s.InUse j := by
      rintro j (hj | hj)
      · exact Or.inl hj
      · rcases List.mem_append.mp hj with hj | hj
        · exact Or.inr hj
        · cases List.mem_singleton.mp hj
          exact Or.inl hk
    refine ⟨fun j hj => h.there j (huse j hj),
      fun i j hi hj => h.apart i j (huse i hi) (huse j hj), ?_, ?_, ?_, ?_⟩
    · simp [h.entries, hm]
    · simpa using h.nodup.concat hkept
    · intro p hp
      rcases List.mem_append.mp hp with hp | hp
      · obtain ⟨hkept, hm⟩ := h.logged p hp
        exact ⟨List.mem_append_left _ hkept, hm⟩
      · cases List.mem_singleton.mp hp
        exact ⟨List.mem_append_right _ (List.mem_singleton.mpr rfl), hm⟩
    · intro j hj
      rcases List.mem_append.mp hj with hj | hj
      · have := h.pinned j hj
        simp [this]
      · simp [List.mem_singleton.mp hj]

theorem draw (h : s.Sound) {i : Nat} {f : Bitmap → Bitmap} (hs : s.draw i f = some s') :
    s'.Sound := by
  simp only [Registry.draw, Option.ite_none_right_eq_some, Option.some.injEq] at hs
  obtain ⟨-, rfl⟩ := hs
  exact ⟨h.there, h.apart, h.entries, h.nodup, h.logged, h.pinned⟩

/-- Every event keeps maps in use apart. -/
theorem step (h : s.Sound) {e : Event} (hs : s.step e = some s') : s'.Sound := by
  cases e with
  | sketch =>
      cases hs
      exact ⟨h.there, h.apart, h.entries, h.nodup, h.logged, h.pinned⟩
  | copySketch i =>
      obtain ⟨b, -, rfl⟩ := Option.map_eq_some_iff.mp hs
      exact ⟨h.there, h.apart, h.entries, h.nodup, h.logged, h.pinned⟩
  | addField i bit => exact h.draw hs
  | addFields i n bit => exact h.draw hs
  | build i a =>
      obtain ⟨hfree, hs⟩ := Option.ite_none_right_eq_some.mp hs
      obtain ⟨b, -, rfl⟩ := Option.map_eq_some_iff.mp hs
      exact h.build hfree b
  | share k =>
      obtain ⟨hk, hs⟩ := Option.ite_none_right_eq_some.mp hs
      cases hs
      exact h.hold (List.forall_mem_cons.mpr ⟨Or.inl hk, fun j => Or.inl⟩)
  | drop k =>
      obtain ⟨hk, hs⟩ := Option.ite_none_right_eq_some.mp hs
      cases hs
      exact h.hold fun j hj => Or.inl (List.mem_of_mem_erase hj)
  | pin k =>
      obtain ⟨hk, hs⟩ := Option.ite_none_right_eq_some.mp hs
      obtain ⟨m, hm, rfl⟩ := Option.map_eq_some_iff.mp hs
      exact h.pin hk hm
  | lookup a =>
      cases hs
      refine h.hold fun j hj => ?_
      rcases List.mem_append.mp hj with hj | hj
      · exact Or.inr (List.mem_of_find?_eq_some (Option.mem_toList.mp hj))
      · exact Or.inl hj

/-- Maps in use are apart at the end of every process. -/
theorem run {events : List Event} (hs : run events = some s) : s.Sound :=
  run_induction (P := fun _ s => s.Sound) start (fun _ _ _ _ h hs => h.step hs) hs

theorem size_pins (h : s.Sound) :
    s.heap.pins.size = (s.log.map Pinning.serial).toFinset.card := by
  have hsize : s.heap.pins.size = s.kept.length := by
    simpa [Pins.size] using congrArg List.length h.entries
  have hsame : (s.log.map Pinning.serial).toFinset = s.kept.toFinset := by
    ext k
    simp only [List.mem_toFinset]
    constructor
    · intro hk
      obtain ⟨p, hp, rfl⟩ := List.mem_map.mp hk
      exact (h.logged p hp).1
    · exact h.pinned k
  rw [hsize, hsame, List.toFinset_card_of_nodup h.nodup]

theorem exists_logged_of_lookup (h : s.Sound) (hl : s.heap.pins.lookup a = some m) :
    ∃ p ∈ s.log, p.map.address = a := by
  obtain ⟨k, hk, hm, haddress⟩ := h.exists_kept_of_lookup hl
  obtain ⟨p, hp, rfl⟩ := List.mem_map.mp (h.pinned k hk)
  cases hm.symm.trans (h.logged p hp).2
  exact ⟨p, hp, haddress⟩

end Sound

/-- The map that an event pins. -/
def Event.pinned? : Event → Option Nat
  | .pin serial => some serial
  | _ => none

theorem log_step {s s' : Registry} {e : Event} (hs : s.step e = some s') :
    s'.log.map Pinning.serial = s.log.map Pinning.serial ++ e.pinned?.toList := by
  cases e with
  | pin k =>
      obtain ⟨-, hs⟩ := Option.ite_none_right_eq_some.mp hs
      obtain ⟨m, -, rfl⟩ := Option.map_eq_some_iff.mp hs
      simp [Registry.pin, Event.pinned?]
  | _ => grind [step, draw, build, Event.pinned?]

/-- The log leaves no call out. -/
theorem log_run {events : List Event} {s : Registry} (hs : run events = some s) :
    s.log.map Pinning.serial = events.filterMap Event.pinned? := by
  refine run_induction (P := fun es s => s.log.map Pinning.serial = es.filterMap Event.pinned?)
    rfl ?_ hs
  intro es e s s' h hs
  rw [log_step hs, h, List.filterMap_append]
  cases hp : e.pinned? <;> simp [hp]

/-- A map is dropped and the next one, built in its place, is pinned and given
up. Another one is pinned twice. -/
def reuse : List Event :=
  [.sketch, .addFields 0 3 true, .build 0 (.numbered 16), .drop 0, .addField 0 false,
    .build 0 (.numbered 16), .pin 1, .drop 1, .copySketch 0, .build 1 (.numbered 32), .pin 2,
    .share 2, .pin 2, .drop 2, .lookup (.numbered 48), .drop 2]

end Registry

/-- Pinning, at the end of every process, with a log of all its calls. A handle
that was returned resolves to the very map that was pinned, as it was then,
whoever else has given it up. Different maps have different handles. Pinning a
map again returns the same handle and changes nothing. As many maps are pinned
as different ones have been, and a handle that was never returned resolves to
nothing. -/
theorem pinning_is_permanent {events : List Registry.Event} {s : Registry}
    (hs : Registry.run events = some s) :
    s.log.map Pinning.serial = events.filterMap Registry.Event.pinned? ∧
      (∀ p ∈ s.log, s.heap.pins.lookup p.map.address = some p.map ∧
        s.resolve p.map.address = some p.serial) ∧
      (∀ p ∈ s.log, ∀ q ∈ s.log, p.map.address = q.map.address → p.serial = q.serial) ∧
      (∀ p ∈ s.log, p.serial ∈ s.held →
        s.step (.pin p.serial) = some { s with log := s.log ++ [p] }) ∧
      s.heap.pins.size = (s.log.map Pinning.serial).toFinset.card ∧
      ∀ a, (∀ p ∈ s.log, p.map.address ≠ a) → s.heap.pins.lookup a = none := by
  have h := Registry.Sound.run hs
  refine ⟨Registry.log_run hs, ?_, ?_, ?_, h.size_pins, ?_⟩
  · intro p hp
    obtain ⟨hk, hm⟩ := h.logged p hp
    exact ⟨h.lookup_eq_some hk hm, h.resolve_eq_some hk hm⟩
  · intro p hp q hq hpq
    obtain ⟨hk, hm⟩ := h.logged p hp
    obtain ⟨hk', hm'⟩ := h.logged q hq
    have hres := h.resolve_eq_some hk hm
    rw [hpq, h.resolve_eq_some hk' hm'] at hres
    exact (Option.some.inj hres).symm
  · intro p hp hheld
    obtain ⟨hk, hm⟩ := h.logged p hp
    simp only [Registry.step, hheld, if_true, hm, Option.map_some, h.pin_of_kept hk hm]
  · intro a ha
    by_contra hl
    obtain ⟨m, hl⟩ := Option.ne_none_iff_exists'.mp hl
    obtain ⟨p, hp, hpa⟩ := h.exists_logged_of_lookup hl
    exact ha p hp hpa

/-- The address of a map that was dropped is used again before it is pinned. -/
theorem pinning_is_permanent_reuse :
    ∃ s, Registry.run Registry.reuse = some s ∧ s.held = [] ∧
      s.built.map PlacedMap.address = [.numbered 16, .numbered 16, .numbered 32] ∧
      s.heap.pins.size = 2 ∧ s.resolve (.numbered 16) = some 1 ∧
      s.heap.pins.lookup (.numbered 48) = none := by
  have hrun : ((Registry.run Registry.reuse).map fun s => (s.held, s.built.map PlacedMap.address,
      s.log.map fun p => (p.serial, p.map.address))) =
        some ([], [.numbered 16, .numbered 16, .numbered 32],
          [(1, .numbered 16), (2, .numbered 32), (2, .numbered 32)]) := by decide +kernel
  obtain ⟨s, hs, hfacts⟩ := Option.map_eq_some_iff.mp hrun
  simp only [Prod.mk.injEq] at hfacts
  obtain ⟨hheld, hbuilt, hlog⟩ := hfacts
  obtain ⟨hserials, hresolve, -, -, hsize, hnone⟩ := pinning_is_permanent hs
  have hfirst : (1, .numbered 16) ∈ s.log.map fun p => (p.serial, p.map.address) := by simp [hlog]
  obtain ⟨p, hp, hpair⟩ := List.mem_map.mp hfirst
  obtain ⟨hserial, haddress⟩ := Prod.mk.inj hpair
  refine ⟨s, hs, hheld, hbuilt, ?_, ?_, hnone _ fun q hq hqa => ?_⟩
  · rw [hsize, hserials]
    decide
  · rw [← haddress, (hresolve p hp).2, hserial]
  · have hmem := List.mem_map_of_mem (f := fun p => (p.serial, p.map.address)) hq
    simp [hlog, hqa] at hmem

end WireFlow
