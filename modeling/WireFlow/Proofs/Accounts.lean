import WireFlow.Compiler
import WireFlow.Proofs.Acceptance

/-!
# The accounts of a session

One session serves many compilations, and a compilation can stop at any stage
with part of its work done. The passes count what they do in the session as they
go. A program is counted, and its map placed and pinned, only once nothing can
stop it any more, so a compilation that stops leaves the counts of programs and
the heap as they were. The accounts therefore agree after every compilation: as
many programs are counted as were returned, and as many maps were pinned.
-/

namespace WireFlow

namespace Heap

variable {h : Heap}

/-- Nothing is pinned at a place that has yet to be handed out. -/
def Apart (h : Heap) : Prop :=
  ∀ m ∈ h.pins.maps, ∀ serial, m.address = .allotted serial → serial < h.next

theorem apart_empty : Apart {} := by
  simp [Apart]

theorem Apart.place (hap : h.Apart) (b : Bitmap) : (h.place b).2.Apart := by
  intro m hm serial hserial
  have := hap m hm serial hserial
  exact Nat.lt_succ_of_lt this

/-- Any map that has been placed can be pinned. -/
theorem Apart.pin (hap : h.Apart) {m : PlacedMap}
    (hm : ∀ serial, m.address = .allotted serial → serial < h.next) : (h.pin m).Apart := by
  intro n hn
  simp only [Heap.pin, Pins.pin] at hn
  split at hn
  · exact hap n hn
  · rcases List.mem_append.mp hn with hn | hn
    · exact hap n hn
    · cases List.mem_singleton.mp hn
      exact hm

theorem Apart.lookup_next (hap : h.Apart) : h.pins.lookup (.allotted h.next) = none := by
  apply List.find?_eq_none.mpr
  intro m hm heq
  have := hap m hm h.next (by simpa using heq)
  omega

/-- A map that has just been placed is new to the pins. -/
theorem Apart.pin_place (hap : h.Apart) (b : Bitmap) :
    ((h.place b).2.pin (h.place b).1).Apart ∧
      ((h.place b).2.pin (h.place b).1).pins.size = h.pins.size + 1 := by
  have hnone := hap.lookup_next
  constructor
  · apply (hap.place b).pin
    intro serial hserial
    cases hserial
    exact Nat.lt_succ_self _
  · simp [Heap.pin, Pins.pin, Heap.place, Heap.placeAt, hnone, Pins.size]

end Heap

/-- Assembling a graph pins one map more. -/
theorem Graph.pinned_of_assemble {g : Graph} {h h' : Heap} {p : Program} (hap : h.Apart)
    (hp : g.assemble h = .ok (p, h')) : h'.Apart ∧ h'.pins.size = h.pins.size + 1 := by
  obtain ⟨c, -, hrest⟩ := Sequencing.bind_eq_ok_iff.mp hp
  cases hrest
  exact hap.pin_place _

/-- All that happened in the session from the first state to the second can be
put down to passes: no program was counted, and if the passes in all agreed with
the passes by name, they still do. -/
structure Session.PassesOnly (s s' : Session) : Prop where
  programs : s'.programsAssembled = s.programsAssembled
  words : s'.frameWords = s.frameWords
  maps : s'.mapsPinned = s.mapsPinned
  passes : s.passesRun = s.passCounts.total → s'.passesRun = s'.passCounts.total

theorem Session.clearRoutine_eq {s : Session} (h : s.routine = none) : s.clearRoutine = s := by
  obtain ⟨⟩ := s
  cases h
  rfl

namespace Session.PassesOnly

variable {s s' s'' : Session}

theorem refl (s : Session) : s.PassesOnly s := ⟨rfl, rfl, rfl, id⟩

theorem trans (h : s.PassesOnly s') (h' : s'.PassesOnly s'') : s.PassesOnly s'' where
  programs := h'.programs.trans h.programs
  words := h'.words.trans h.words
  maps := h'.maps.trans h.maps
  passes hs := h'.passes (h.passes hs)

theorem countPass (s : Session) (name : String) : s.PassesOnly (s.countPass name) := by
  refine ⟨rfl, rfl, rfl, fun hs => ?_⟩
  simp [Session.countPass, hs]

theorem countRounds (rounds : List SweepRound) (s : Session) :
    s.PassesOnly (rounds.foldl Session.countRound s) := by
  induction rounds generalizing s with
  | nil => exact .refl s
  | cons round rest ih =>
      have hround : s.PassesOnly (s.countRound round) := ⟨rfl, rfl, rfl, id⟩
      exact hround.trans (ih _)

end Session.PassesOnly

/-- The pass counts no programs. -/
def Pass.KeepsAccounts (pass : Pass) : Prop :=
  ∀ w w' did, pass.run w = .ok (w', did) → w.session.PassesOnly w'.session

theorem Pass.keepsAccounts_sweep : Pass.sweep.KeepsAccounts := by
  intro w w' did h
  cases h
  exact .countRounds _ _

namespace Pipeline

theorem passesOnly_runPasses (wanted : Bool) {passes : List Pass}
    (hp : ∀ pass ∈ passes, pass.KeepsAccounts) (w : Work) (changed : Bool) :
    w.session.PassesOnly (runPasses wanted passes w changed).1.session := by
  induction passes generalizing w changed with
  | nil => exact .refl _
  | cons pass rest ih =>
      obtain ⟨hpass, hrest⟩ := List.forall_mem_cons.mp hp
      have hcount := Session.PassesOnly.countPass w.session pass.name
      simp only [runPasses]
      cases hrun : pass.run { w with session := w.session.countPass pass.name } with
      | error e => exact hcount
      | ok r =>
          obtain ⟨w', did⟩ := r
          have hdone := hcount.trans (hpass _ _ _ hrun)
          dsimp only
          cases checkIf wanted false w'.graph with
          | error e => exact hdone
          | ok u => exact hdone.trans (ih hrest w' _)

theorem passesOnly_run {p : Pipeline} (hp : ∀ pass ∈ p.passes, pass.KeepsAccounts) (w : Work) :
    w.session.PassesOnly (p.run w).1.session := by
  have hpasses := passesOnly_runPasses p.config.check hp w false
  unfold run
  cases checkIf p.config.check false w.graph with
  | error e => exact .refl _
  | ok u =>
      dsimp only
      generalize runPasses p.config.check p.passes w false = r at hpasses ⊢
      obtain ⟨w', result⟩ := r
      cases result with
      | error e => exact hpasses
      | ok changed =>
          dsimp only
          cases checkIf (p.config.check && p.config.sweep) true w'.graph <;> exact hpasses

theorem keepsAccounts_ofConfig (c : Config) : ∀ pass ∈ (ofConfig c).passes, pass.KeepsAccounts := by
  intro pass hpass
  simp only [ofConfig, List.mem_ite_nil_right, List.mem_singleton] at hpass
  rw [hpass.2]
  exact Pass.keepsAccounts_sweep

end Pipeline

namespace Workshop

/-- How a compilation can end: it stops with the heap untouched and no program
counted, or a graph is assembled and its program counted. -/
inductive Ends (s : Session) (h : Heap) : Workshop × Except Stop Program → Prop
  | stopped {work : Work} (stop : Stop) (passes : s.PassesOnly work.session) :
      Ends s h (⟨work, h⟩, .error stop)
  | assembled (work : Work) {p : Program} {h' : Heap} (passes : s.PassesOnly work.session)
      (assembled : work.graph.assemble h = .ok (p, h')) :
      Ends s h
        (⟨⟨(work.session.countProgram p.code.frameSize).countPin, work.graph⟩, h'⟩, .ok p)

theorem ends_build {p : Pipeline} (hp : ∀ pass ∈ p.passes, pass.KeepsAccounts) (w : Workshop) :
    Ends w.work.session w.heap (w.build p) := by
  have hpasses := Pipeline.passesOnly_run hp w.work
  unfold build
  generalize p.run w.work = r at hpasses ⊢
  obtain ⟨work, result⟩ := r
  cases result with
  | error stop => exact .stopped stop hpasses
  | ok changed =>
      simp only [assemble]
      cases hp : work.graph.assemble w.heap with
      | error e => exact .stopped _ hpasses
      | ok r => exact .assembled work hpasses hp

theorem Ends.of_passesOnly {s s' : Session} {h : Heap} {r : Workshop × Except Stop Program}
    (hs : s.PassesOnly s') (hr : Ends s' h r) : Ends s h r := by
  cases hr with
  | stopped stop passes => exact .stopped stop (hs.trans passes)
  | assembled work passes assembled => exact .assembled work (hs.trans passes) assembled

theorem Ends.clearRoutine {s : Session} {h : Heap} {w : Workshop} {result : Except Stop Program}
    (hw : Ends s h (w, result)) : Ends s h (w.onSession Session.clearRoutine, result) := by
  have hclear (s : Session) : s.PassesOnly s.clearRoutine := ⟨rfl, rfl, rfl, id⟩
  cases hw with
  | stopped stop passes => exact .stopped stop (passes.trans (hclear _))
  | assembled work passes assembled =>
      exact .assembled ⟨work.session.clearRoutine, work.graph⟩ (passes.trans (hclear _)) assembled

theorem ends_compile {p : Pipeline} (hp : ∀ pass ∈ p.passes, pass.KeepsAccounts) (w : Workshop)
    (name : String) : Ends w.work.session w.heap (w.compile p name) := by
  have hset : w.work.session.PassesOnly (w.work.session.setRoutine name) := ⟨rfl, rfl, rfl, id⟩
  exact ((ends_build hp (w.onSession fun s => s.setRoutine name)).of_passesOnly hset).clearRoutine

/-- A graph that fails the first check is given back, and so is the session. -/
theorem compile_of_check_error {w : Workshop} {c : Pipeline.Config} (hc : c.check = true)
    {e : Rejection} (he : w.work.graph.check false = .error e) (name : String) :
    w.compile (.ofConfig c) name =
      (w.onSession Session.clearRoutine, .error (.rejected e)) := by
  have hcheck : Pipeline.checkIf (Pipeline.ofConfig c).config.check false w.work.graph =
      .error e := by
    simpa [Pipeline.checkIf, Pipeline.ofConfig, hc] using he
  simp only [compile, build, onSession, Pipeline.run, hcheck]
  rfl

end Workshop

/-- A graph to be compiled, with its name and the configuration to compile it under. -/
structure Request where
  name : String
  config : Pipeline.Config
  graph : Graph

/-- What one compilation leaves to the next, and how all so far have ended. -/
structure Ledger where
  session : Session
  heap : Heap
  results : List (Except Stop Program)

/-- Compile as requested, in the session and the heap of a ledger. -/
def Request.compile (r : Request) (l : Ledger) : Workshop × Except Stop Program :=
  Workshop.compile ⟨⟨l.session, r.graph⟩, l.heap⟩ (.ofConfig r.config) r.name

namespace Ledger

/-- Compile as requested and write down the result. -/
def serve (l : Ledger) (r : Request) : Ledger :=
  let (w, result) := r.compile l
  ⟨w.work.session, w.heap, l.results ++ [result]⟩

/-- A new session that serves requests in order. -/
def serveAll (h : Heap) (rs : List Request) : Ledger := rs.foldl serve ⟨{}, h, []⟩

/-- The programs returned so far, earliest first. -/
def programs (l : Ledger) : List Program := l.results.filterMap Except.toOption

/-- The accounts of a session that began with the heap `h` agree. -/
structure Balanced (h : Heap) (l : Ledger) : Prop where
  routine : l.session.routine = none
  programs : l.session.programsAssembled = l.programs.length
  maps : l.session.mapsPinned = l.programs.length
  pins : l.heap.pins.size = h.pins.size + l.programs.length
  words : l.session.frameWords = sumOf (fun p => p.code.frameSize) l.programs
  passes : l.session.passesRun = l.session.passCounts.total

variable {h : Heap} {l : Ledger}

theorem ends_compile (r : Request) (l : Ledger) :
    Workshop.Ends l.session l.heap (r.compile l) :=
  Workshop.ends_compile (Pipeline.keepsAccounts_ofConfig r.config) ⟨⟨l.session, r.graph⟩, l.heap⟩
    r.name

theorem programs_serve (l : Ledger) (r : Request) :
    (l.serve r).programs = l.programs ++ (r.compile l).2.toOption.toList := by
  cases hr : (r.compile l).2 <;> simp [programs, serve, hr, Except.toOption]

/-- One more compilation keeps the accounts in agreement. -/
theorem Balanced.serve (hl : l.Balanced h) (hap : l.heap.Apart) (r : Request) :
    (l.serve r).Balanced h ∧ (l.serve r).heap.Apart := by
  have hends := ends_compile r l
  have hprograms := l.programs_serve r
  have hroutine : (l.serve r).session.routine = none := rfl
  have hsession : (l.serve r).session = (r.compile l).1.work.session := rfl
  have hheap : (l.serve r).heap = (r.compile l).1.heap := rfl
  generalize r.compile l = x at hends hprograms hsession hheap
  cases hends with
  | @stopped work stop passes =>
      simp only [Except.toOption, Option.toList_none, List.append_nil] at hprograms hsession hheap
      refine ⟨⟨hroutine, ?_, ?_, ?_, ?_, ?_⟩, hheap ▸ hap⟩
      · rw [hprograms, hsession, passes.programs, hl.programs]
      · rw [hprograms, hsession, passes.maps, hl.maps]
      · rw [hprograms, hheap, hl.pins]
      · rw [hprograms, hsession, passes.words, hl.words]
      · rw [hsession]
        exact passes.passes hl.passes
  | @assembled work p h' passes assembled =>
      obtain ⟨hap', hsize⟩ := Graph.pinned_of_assemble hap assembled
      simp only [Except.toOption, Option.toList_some] at hprograms hsession hheap
      refine ⟨⟨hroutine, ?_, ?_, ?_, ?_, ?_⟩, hheap ▸ hap'⟩
      · rw [hprograms, hsession, List.length_append, ← hl.programs, ← passes.programs]
        rfl
      · rw [hprograms, hsession, List.length_append, ← hl.maps, ← passes.maps]
        rfl
      · rw [hprograms, hheap, hsize, hl.pins, List.length_append]
        rfl
      · rw [hprograms, hsession, sumOf_append, ← hl.words, ← passes.words]
        rfl
      · rw [hsession]
        exact passes.passes hl.passes

theorem serveAll_concat (h : Heap) (rs : List Request) (r : Request) :
    serveAll h (rs ++ [r]) = (serveAll h rs).serve r := by
  simp [serveAll]

/-- The accounts agree after every sequence of compilations. -/
theorem balanced_serveAll (hap : h.Apart) (rs : List Request) :
    (serveAll h rs).Balanced h ∧ (serveAll h rs).heap.Apart := by
  induction rs using List.reverseRecOn with
  | nil => exact ⟨⟨rfl, rfl, rfl, rfl, rfl, rfl⟩, hap⟩
  | append_singleton rs r ih =>
      rw [serveAll_concat]
      exact ih.1.serve ih.2 r

theorem length_results_serveAll (h : Heap) (rs : List Request) :
    (serveAll h rs).results.length = rs.length := by
  induction rs using List.reverseRecOn with
  | nil => rfl
  | append_singleton rs r ih => simp [serveAll_concat, serve, ih]

theorem Balanced.compile_of_check_error (hl : l.Balanced h) {r : Request} {e : Rejection}
    (hc : r.config.check = true) (he : r.graph.check false = .error e) :
    r.compile l = (⟨⟨l.session, r.graph⟩, l.heap⟩, .error (.rejected e)) := by
  have hcompile :=
    Workshop.compile_of_check_error (w := ⟨⟨l.session, r.graph⟩, l.heap⟩) hc he r.name
  rw [Workshop.onSession, Session.clearRoutine_eq hl.routine] at hcompile
  exact hcompile

end Ledger

/-- A session after any sequence of compilations, one result for each. No
routine is named; as many programs and pinned maps are counted as programs were
returned, which is also by how much the pins have grown; the frame words are
those of the programs returned, and the passes in all those by name. A further
compilation that stops leaves the counts of programs, pins and frame words and
the heap as they are, and one that fails the first check leaves everything. -/
theorem compiling_keeps_accounts {h : Heap} (hap : h.Apart) (rs : List Request) :
    let l := Ledger.serveAll h rs
    l.results.length = rs.length ∧ l.Balanced h ∧
      (∀ (r : Request) w stop, r.compile l = (w, .error stop) →
        w.work.session.programsAssembled = l.session.programsAssembled ∧
          w.work.session.mapsPinned = l.session.mapsPinned ∧
          w.work.session.frameWords = l.session.frameWords ∧ w.heap = l.heap) ∧
      ∀ (r : Request) e, r.config.check = true → r.graph.check false = .error e →
        r.compile l = (⟨⟨l.session, r.graph⟩, l.heap⟩, .error (.rejected e)) := by
  intro l
  have hl : l.Balanced h := (Ledger.balanced_serveAll hap rs).1
  refine ⟨Ledger.length_results_serveAll h rs, hl, ?_, ?_⟩
  · intro r w stop hr
    have hends := Ledger.ends_compile r l
    rw [hr] at hends
    cases hends with
    | stopped _ passes => exact ⟨passes.programs, passes.maps, passes.words, rfl⟩
  · intro r e
    exact hl.compile_of_check_error

/-- A graph of one block. -/
def Graph.single (b : Block) : Graph := ⟨#[b], 0, 0, by simp⟩

/-- Two requests for a graph that can be compiled. Between them one fails the
first check, one is found to hold an unread definition after the sweep, and one
cannot be assembled. -/
def Request.mixed : List Request :=
  [⟨"countdown", {}, .countdown⟩,
    ⟨"ghost", {}, .single ⟨0, [], [], .ret [.scalar 9]⟩⟩,
    ⟨"discarded", {},
      .single ⟨0, [], [.const (.scalar 0) 1, .binary .zero .add (.scalar 0) (.scalar 0)], .ret []⟩⟩,
    ⟨"loop", .bare, .single ⟨0, [⟨.scalar 0, []⟩], [], .jump 0⟩⟩,
    ⟨"countdown", .bare, .countdown⟩]

/-- Only the requests that were served count. -/
theorem compiling_keeps_accounts_mixed :
    let l := Ledger.serveAll {} Request.mixed
    (l.results.map fun result => result.toOption.isSome) = [true, false, false, false, true] ∧
      l.programs.map (fun p => p.code.frameSize) = [4, 7] ∧ l.session.frameWords = 11 ∧
      l.session.programsAssembled = 2 ∧ l.heap.pins.size = 2 ∧ l.session.passesRun = 2 ∧
      l.session.passCounts.total = 2 := by
  intro l
  have hresults : (l.results.map fun result => result.toOption.isSome) =
      [true, false, false, false, true] := by decide +kernel
  have hframes : l.programs.map (fun p => p.code.frameSize) = [4, 7] := by decide +kernel
  have hpasses : l.session.passesRun = 2 := by decide +kernel
  obtain ⟨-, hl, -⟩ := compiling_keeps_accounts Heap.apart_empty Request.mixed
  have hcount : l.programs.length = 2 := by simpa using congrArg List.length hframes
  refine ⟨hresults, hframes, ?_, hl.programs.trans hcount, ?_, hpasses, hl.passes ▸ hpasses⟩
  · rw [hl.words, sumOf_eq_sum, hframes]
    rfl
  · rw [hl.pins, hcount]
    rfl

end WireFlow
