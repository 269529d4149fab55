import WireFlow.Count
import WireFlow.Proofs.BitLists
import WireFlow.Proofs.Pinning
import WireFlow.Proofs.Sequencing

/-!
# Built maps describe what was added

A sketch is a packed bitmap, and it may go on as a copy of another one. What it
stands for is the history of the calls that led to it, those on the sketch it
was copied from included. A map that is built has the words of that history, and
goes its own way from then on.

In memory a map is a header with a signed length and a block that was not cleared
when it was allotted. Building overwrites all of the block, so nothing that was
there before can be read.
-/

namespace WireFlow

theorem forall₂_modify {α β : Type} {R : α → β → Prop} {xs : List α} {ys : List β}
    (h : List.Forall₂ R xs ys) {f : α → α} {f' : β → β} (hf : ∀ x y, R x y → R (f x) (f' y))
    (i : Nat) : List.Forall₂ R (xs.modify i f) (ys.modify i f') := by
  induction h generalizing i with
  | nil => simp
  | cons hxy hrest ih =>
      cases i with
      | zero => simpa using ⟨hf _ _ hxy, hrest⟩
      | succ i => simpa using ⟨hxy, ih i⟩

namespace MemBlock

/-- Overwrite bytes in order, starting at byte `i`. -/
def putAll (m : MemBlock) (i : Nat) : List UInt8 → Except Fault MemBlock
  | [] => .ok m
  | byte :: rest => do (← m.put i byte).putAll (i + 1) rest

/-- Bytes before position `i` stay, and the rest is overwritten whatever it was. -/
theorem putAll_eq_ok (type : BlockType) (done stale bytes : List UInt8)
    (h : stale.length = bytes.length) :
    (⟨type, (done ++ stale).toArray⟩ : MemBlock).putAll done.length bytes =
      .ok ⟨type, (done ++ bytes).toArray⟩ := by
  induction bytes generalizing done stale with
  | nil =>
      cases List.length_eq_zero_iff.mp h
      rfl
  | cons byte rest ih =>
      obtain ⟨old, stale, rfl⟩ := List.exists_cons_of_length_eq_add_one h
      have hput : (⟨type, (done ++ old :: stale).toArray⟩ : MemBlock).put done.length byte =
          .ok ⟨type, ((done ++ [byte]) ++ stale).toArray⟩ := by
        simp [put]
      have hrest := ih (done ++ [byte]) stale (by simpa using h)
      rw [List.length_append, List.length_singleton] at hrest
      rw [putAll, hput, Sequencing.ok_bind, hrest, List.append_assoc, List.singleton_append]

end MemBlock

namespace PointerMap

/-- A map as it lies in memory. -/
structure Image where
  count : Int32
  length : Int32
  block : MemBlock

/-- Freeze a bitmap in a block that holds anything. -/
def Image.freeze (b : Bitmap) (block : MemBlock) : Except Fault Image := do
  return ⟨1, .ofNat b.length, ← block.putAll 0 b.bytes.toList⟩

/-- The map that an image is read as. -/
def Image.map (m : Image) : PointerMap :=
  ⟨m.count.toNatClampNeg, m.length.toNatClampNeg, m.block⟩

/-- What a block held before does not show. -/
theorem Image.map_freeze {b : Bitmap} {block : MemBlock}
    (hlength : b.length ≤ Int32.maxValue.toNatClampNeg) (htype : block.type = .byte)
    (hsize : block.size = b.bytes.size) :
    (Image.freeze b block).map Image.map = .ok (ofBitmap b) := by
  have hheader : (Int32.ofNat b.length).toNatClampNeg = b.length :=
    Int32.toNatClampNeg_ofNat_of_lt (Nat.lt_succ_of_le hlength)
  have hput : block.putAll 0 b.bytes.toList = .ok ⟨.byte, b.bytes⟩ := by
    rw [← htype]
    exact MemBlock.putAll_eq_ok block.type [] block.data.toList b.bytes.toList hsize
  rw [freeze, hput]
  simp only [Sequencing.ok_bind, Sequencing.pure_eq_ok, Except.map, Image.map, ofBitmap, hheader]
  rfl

/-- The map says of every word whether it is a pointer, and nothing of others. -/
structure Describes (m : PointerMap) (words : List Bool) : Prop where
  length : m.length = words.length
  word : ∀ k bit, words[k]? = some bit → m.isPointer k = .ok bit
  past : ∀ k, m.length ≤ k → m.isPointer k = .error (.mapWord k)
  pointers : ∀ k, k ∈ m.pointerWords ↔ words[k]? = some true
  increasing : m.pointerWords.Pairwise (· < ·)
  size : m.bytes.size = (m.length + 7) / 8

theorem describes_ofBitmap {b : Bitmap} {bits : List Bool} (h : b.Holds bits) :
    (ofBitmap b).Describes bits where
  length := h.length
  word k bit hk := isPointer_ofBitmap (h.toList_eq ▸ hk)
  past k hk := if_neg (Nat.not_lt.mpr hk)
  pointers k := by rw [mem_pointerWords_ofBitmap, h.toList_eq]
  increasing := pairwise_pointerWords _
  size := by
    have hlength : (ofBitmap b).length = bits.length := h.length
    rw [hlength]
    exact h.size

end PointerMap

namespace Registry

/-- A call that adds words to a sketch. -/
inductive Call where
  | field (bit : Bool)
  | fields (n : Nat) (bit : Bool)
deriving DecidableEq

namespace Call

def isField : Call → Bool
  | field _ => true
  | fields _ _ => false

/-- The count that was given; a single field has none. -/
def given : Call → Nat
  | field _ => 0
  | fields n _ => n

def described : Call → List Bool
  | field bit => [bit]
  | fields n bit => List.replicate n bit

/-- The words that calls describe, in order. -/
def words (calls : List Call) : List Bool := calls.flatMap described

theorem words_concat (calls : List Call) (c : Call) :
    words (calls ++ [c]) = words calls ++ c.described := by
  simp [words]

theorem length_words (calls : List Call) :
    (words calls).length = calls.countP isField + sumOf given calls := by
  induction calls with
  | nil => rfl
  | cons c rest ih =>
      simp only [words, List.flatMap_cons, List.length_append, List.countP_cons, sumOf_cons]
        at ih ⊢
      rw [ih]
      cases c <;> simp only [described, isField, given, List.length_singleton,
        List.length_replicate, if_true, Bool.false_eq_true, if_false] <;> omega

end Call

/-- The calls behind each sketch after one more event. -/
def Event.record (calls : List (List Call)) : Event → List (List Call)
  | .sketch => calls ++ [[]]
  | .copySketch i => calls ++ (calls[i]?).toList
  | .addField i bit => calls.modify i (· ++ [.field bit])
  | .addFields i n bit => calls.modify i (· ++ [.fields n bit])
  | _ => calls

/-- The calls behind each sketch of a process. -/
def calls (events : List Event) : List (List Call) := events.foldl Event.record []

/-- The sketches are the packed words of what was called. -/
def Sketched (s : Registry) (calls : List (List Call)) : Prop :=
  List.Forall₂ (fun (b : Bitmap) cs => b.Holds (Call.words cs)) s.sketches calls

namespace Sketched

variable {s s' : Registry} {calls : List (List Call)}

theorem draw (h : s.Sketched calls) {i : Nat} {f : Bitmap → Bitmap} {c : Call}
    (hf : ∀ (b : Bitmap) bits, b.Holds bits → (f b).Holds (bits ++ c.described))
    (hs : s.draw i f = some s') : s'.Sketched (calls.modify i (· ++ [c])) := by
  simp only [Registry.draw, Option.ite_none_right_eq_some, Option.some.injEq] at hs
  obtain ⟨-, rfl⟩ := hs
  refine forall₂_modify h (fun b cs hb => ?_) i
  rw [Call.words_concat]
  exact hf b _ hb

/-- Every event does to the sketches what it adds to their histories. -/
theorem step (h : s.Sketched calls) {e : Event} (hs : s.step e = some s') :
    s'.Sketched (e.record calls) := by
  cases e with
  | sketch =>
      cases hs
      exact List.rel_append h (.cons Bitmap.holds_empty .nil)
  | copySketch i =>
      obtain ⟨b, hb, rfl⟩ := Option.map_eq_some_iff.mp hs
      obtain ⟨cs, hcs, hb⟩ := Sequencing.forall₂_getElem? h.flip hb
      rw [Event.record, hcs]
      exact List.rel_append h (.cons hb .nil)
  | addField i bit => exact h.draw (fun _ _ hb => hb.append bit) hs
  | addFields i n bit => exact h.draw (fun _ _ hb => hb.appendMany n bit) hs
  | _ =>
      have hsame : s'.sketches = s.sketches := by
        grind [Registry.step, Registry.build, Registry.pin]
      rw [Sketched, hsame]
      exact h

theorem run {events : List Event} (hs : run events = some s) :
    s.Sketched (Registry.calls events) := by
  refine run_induction (P := fun es s => s.Sketched (Registry.calls es)) .nil ?_ hs
  intro es e s s' h hs
  rw [Registry.calls, List.foldl_append]
  exact h.step hs

end Sketched

/-- A map stays as it was built. -/
theorem built_step {s s' : Registry} {e : Event} (hs : s.step e = some s') :
    s.built <+: s'.built := by
  cases e with
  | build i a =>
      obtain ⟨-, hs⟩ := Option.ite_none_right_eq_some.mp hs
      obtain ⟨b, -, rfl⟩ := Option.map_eq_some_iff.mp hs
      exact List.prefix_append ..
  | _ => grind [step, draw, pin]

theorem built_foldlM {s t : Registry} {events : List Event} (ht : events.foldlM step s = some t) :
    s.built <+: t.built := by
  induction events generalizing s with
  | nil =>
      cases ht
      exact List.prefix_rfl
  | cons e rest ih =>
      rw [List.foldlM_cons] at ht
      obtain ⟨s', hs, ht⟩ := Option.bind_eq_some_iff.mp ht
      exact (built_step hs).trans (ih ht)

/-- Two sketches that part ways after the first field. -/
def fork : List Event :=
  [.sketch, .addField 0 true, .copySketch 0, .addFields 0 9 false, .build 0 (.numbered 16),
    .addField 1 false, .addFields 1 7 true, .addField 0 true]

end Registry

/-- A map that is built after any events describes the words of the calls behind
its sketch, of which there are as many as single fields were added and counts were
given for the others. The counters go up by one block and by the bytes of the map,
none of which is scanned. As long as the length fits into a header, the same map
comes about in a block that held anything before. No later event changes it. -/
theorem built_map_describes_added_fields {before : List Registry.Event} {s : Registry} {i : Nat}
    {calls : List Registry.Call} {a : Address} (hs : Registry.run before = some s)
    (hcalls : (Registry.calls before)[i]? = some calls) (hfree : s.free a = true)
    (hlimit : (Registry.Call.words calls).length ≤ Int32.maxValue.toNatClampNeg) :
    ∃ b m s', s.sketches[i]? = some b ∧ s.step (.build i a) = some s' ∧
      s'.built = s.built ++ [⟨a, m⟩] ∧ m.Describes (Registry.Call.words calls) ∧
      m.length = calls.countP Registry.Call.isField + sumOf Registry.Call.given calls ∧
      s'.heap.counts = ⟨s.heap.counts.blocks + 1, s.heap.counts.bytes + m.bytes.size,
        s.heap.counts.noScanBytes + m.bytes.size⟩ ∧
      (∀ block : MemBlock, block.type = .byte → block.size = m.bytes.size →
        (PointerMap.Image.freeze b block).map PointerMap.Image.map = .ok m) ∧
      ∀ (after : List Registry.Event) (t : Registry), after.foldlM Registry.step s' = some t →
        t.built[s.built.length]? = some ⟨a, m⟩ := by
  obtain ⟨b, hb, hbits⟩ := Sequencing.forall₂_getElem? (Registry.Sketched.run hs) hcalls
  have hdescribes := PointerMap.describes_ofBitmap hbits
  have hstep : s.step (.build i a) = some (s.build a b) := by
    simp only [Registry.step, hfree, if_true, hb, Option.map_some]
  refine ⟨b, .ofBitmap b, s.build a b, hb, hstep, rfl, hdescribes, ?_, rfl, ?_, ?_⟩
  · rw [hdescribes.length, Registry.Call.length_words]
  · intro block htype hsize
    exact PointerMap.Image.map_freeze (hbits.length ▸ hlimit) htype hsize
  · intro after t ht
    obtain ⟨more, hmore⟩ := Registry.built_foldlM ht
    have hthere : (s.build a b).built[s.built.length]? = some ⟨a, .ofBitmap b⟩ :=
      List.getElem?_concat_length
    rw [← hmore, List.getElem?_append_left (List.getElem?_eq_some_iff.mp hthere).1, hthere]

/-- The second sketch has the field that was added before it was copied, and none
of the nine. -/
theorem built_map_describes_added_fields_of_fork :
    ∃ s m s', Registry.run Registry.fork = some s ∧
      s.step (.build 1 (.numbered 32)) = some s' ∧ s'.built = s.built ++ [⟨.numbered 32, m⟩] ∧
      m.length = 9 ∧ m.isPointer 1 = .ok false ∧ m.isPointer 8 = .ok true ∧
      m.isPointer 9 = .error (.mapWord 9) ∧ s'.heap.counts = ⟨2, 4, 4⟩ := by
  have hrun : ((Registry.run Registry.fork).map fun s => (s.free (.numbered 32), s.heap.counts)) =
      some (true, ⟨1, 2, 2⟩) := by decide +kernel
  obtain ⟨s, hs, hfacts⟩ := Option.map_eq_some_iff.mp hrun
  simp only [Prod.mk.injEq] at hfacts
  obtain ⟨hfree, hcounts⟩ := hfacts
  have hcalls : (Registry.calls Registry.fork)[1]? =
      some [.field true, .field false, .fields 7 true] := by decide
  obtain ⟨-, m, s', -, hstep, hbuilt, hm, hlength, hcount, -⟩ :=
    built_map_describes_added_fields hs hcalls hfree (by decide)
  have hnine : m.length = 9 := hlength
  refine ⟨s, m, s', hs, hstep, hbuilt, hnine, hm.word 1 false rfl, hm.word 8 true rfl,
    hm.past 9 hnine.le, ?_⟩
  rw [hcount, hm.size, hnine, hcounts]

end WireFlow
