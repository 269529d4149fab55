import WireFlow.Graph.Sweep
import WireFlow.Proofs.Checked

/-!
# Thinned graphs

Sweeping thins a graph out: definitions of registers that nothing reads become
definitions of the sentinel, and nodes that do nothing else may be left out.
Thinning twice is thinning once by more registers, so that a whole sweep is one
thinning of the graph it started from. A thinned graph is in order if the graph
was, since whatever it still reads it still defines.
-/

namespace WireFlow

/-- A row of nodes in which every node is changed, or left out if it is idle. -/
inductive Thin {α : Type} (change : α → α) (idle : α → Prop) : List α → List α → Prop
  | nil : Thin change idle [] []
  | keep (x : α) {xs ys : List α} (h : Thin change idle xs ys) :
      Thin change idle (x :: xs) (change x :: ys)
  | drop {x : α} {xs ys : List α} (hx : idle x) (h : Thin change idle xs ys) :
      Thin change idle (x :: xs) ys

namespace Thin

variable {α : Type} {change : α → α} {idle : α → Prop} {xs ys : List α}

theorem filter_map (keeps : α → Bool) (h : ∀ x, keeps (change x) = false → idle x) (xs : List α) :
    Thin change idle xs ((xs.map change).filter keeps) := by
  induction xs with
  | nil => exact .nil
  | cons x xs ih =>
      rw [List.map_cons, List.filter_cons]
      cases hk : keeps (change x) with
      | true => exact ih.keep x
      | false => exact ih.drop (h x hk)

theorem refl (hid : ∀ x, change x = x) (xs : List α) : Thin change idle xs xs := by
  induction xs with
  | nil => exact .nil
  | cons x xs ih =>
      have h := ih.keep x
      rwa [hid] at h

theorem imp {idle' : α → Prop} (h : Thin change idle xs ys) (hidle : ∀ x, idle x → idle' x) :
    Thin change idle' xs ys := by
  induction h with
  | nil => exact .nil
  | keep x _ ih => exact ih.keep x
  | drop hx _ ih => exact ih.drop (hidle _ hx)

theorem append {xs' ys' : List α} (h : Thin change idle xs ys) (h' : Thin change idle xs' ys') :
    Thin change idle (xs ++ xs') (ys ++ ys') := by
  induction h with
  | nil => exact h'
  | keep x _ ih => exact ih.keep x
  | drop hx _ ih => exact ih.drop hx

theorem trans {change' change'' : α → α} {idle' idle'' : α → Prop} {zs : List α}
    (h : Thin change idle xs ys) (h' : Thin change' idle' ys zs)
    (hchange : ∀ x, change'' x = change' (change x)) (hidle : ∀ x, idle x → idle'' x)
    (hidle' : ∀ x, idle' (change x) → idle'' x) : Thin change'' idle'' xs zs := by
  induction h generalizing zs with
  | nil =>
      cases h'
      exact .nil
  | keep x _ ih =>
      -- a node that the first thinning keeps can still be left out by the second
      cases h' with
      | keep _ h' =>
          rw [← hchange]
          exact (ih h').keep x
      | drop hx h' => exact (ih h').drop (hidle' x hx)
  | drop hx _ ih => exact (ih h').drop (hidle _ hx)

theorem exists_of_mem (h : Thin change idle xs ys) {y : α} (hy : y ∈ ys) :
    ∃ x ∈ xs, change x = y := by
  induction h with
  | nil => cases hy
  | keep x _ ih =>
      rcases List.mem_cons.mp hy with rfl | hy
      · exact ⟨x, List.mem_cons_self .., rfl⟩
      · obtain ⟨z, hz, heq⟩ := ih hy
        exact ⟨z, List.mem_cons_of_mem _ hz, heq⟩
  | drop _ _ ih =>
      obtain ⟨z, hz, heq⟩ := ih hy
      exact ⟨z, List.mem_cons_of_mem _ hz, heq⟩

theorem mem_or_idle (h : Thin change idle xs ys) {x : α} (hx : x ∈ xs) :
    change x ∈ ys ∨ idle x := by
  induction h with
  | nil => cases hx
  | keep z _ ih =>
      rcases List.mem_cons.mp hx with rfl | hx
      · exact Or.inl (List.mem_cons_self ..)
      · exact (ih hx).imp_left (List.mem_cons_of_mem _)
  | drop hz _ ih =>
      rcases List.mem_cons.mp hx with rfl | hx
      · exact Or.inr hz
      · exact ih hx

/-- What the nodes define is thinned with them. -/
theorem named_flatMap_sublist (h : Thin change idle xs ys) {D : α → List Reg}
    (hD : ∀ x, (Layout.named (D (change x))).Sublist (Layout.named (D x))) :
    (Layout.named (ys.flatMap D)).Sublist (Layout.named (xs.flatMap D)) := by
  induction h with
  | nil => exact List.Sublist.refl _
  | keep x _ ih =>
      rw [List.flatMap_cons, List.flatMap_cons, Layout.named_append, Layout.named_append]
      exact (hD x).append ih
  | drop _ _ ih =>
      rw [List.flatMap_cons, Layout.named_append]
      exact ih.trans (List.sublist_append_right ..)

end Thin

namespace Reg

variable {dead dead' : List Reg} {r : Reg}

/-- Dead registers become the sentinel. -/
def retired (dead : List Reg) (r : Reg) : Reg := if r ∈ dead then .zero else r

/-- The register is dead, or has been the sentinel all along. -/
def Gone (dead : List Reg) (r : Reg) : Prop := r = .zero ∨ r ∈ dead

theorem retired_eq_zero_iff : r.retired dead = .zero ↔ r.Gone dead := by
  unfold retired Gone
  by_cases h : r ∈ dead <;> simp [h]

theorem retired_of_not_mem (h : r ∉ dead) : r.retired dead = r := if_neg h

theorem retired_nil : retired [] = id := by
  funext r
  simp [retired]

theorem retired_append (dead dead' : List Reg) :
    retired (dead ++ dead') = retired dead' ∘ retired dead := by
  funext r
  by_cases h : r ∈ dead <;> simp [retired, h]

/-- A register that is left has not been dead. -/
theorem retired_eq_iff (hr : r ≠ .zero) {s : Reg} : s.retired dead = r ↔ s = r ∧ r ∉ dead := by
  unfold retired
  by_cases h : s ∈ dead
  · simp only [h, if_true]
    exact ⟨fun hz => absurd hz.symm hr, fun ⟨hs, hd⟩ => absurd (hs ▸ h) hd⟩
  · simp only [h, if_false]
    exact ⟨fun hs => ⟨hs, hs ▸ h⟩, And.left⟩

theorem named_map_retired_sublist (dead rs : List Reg) :
    (Layout.named (rs.map (retired dead))).Sublist (Layout.named rs) := by
  induction rs with
  | nil => exact List.Sublist.refl _
  | cons r rs ih =>
      have hsingle : (Layout.named [r.retired dead]).Sublist (Layout.named [r]) := by
        by_cases h : r ∈ dead
        · simp [retired, h, Layout.named]
        · rw [retired_of_not_mem h]
      rw [List.map_cons, ← List.singleton_append, ← List.singleton_append (l := rs),
        Layout.named_append, Layout.named_append]
      exact hsingle.append ih

theorem Gone.append (h : r.Gone dead) : r.Gone (dead ++ dead') :=
  h.imp_right (List.mem_append_left _)

theorem Gone.of_retired (h : (r.retired dead).Gone dead') : r.Gone (dead ++ dead') := by
  by_cases hr : r ∈ dead
  · exact Or.inr (List.mem_append_left _ hr)
  · rw [retired_of_not_mem hr] at h
    exact h.imp_right (List.mem_append_right _)

end Reg

/-- The phi defines nothing that is left. -/
def Phi.Idle (dead : List Reg) (φ : Phi) : Prop := φ.dst.Gone dead

namespace Instr

variable {dead dead' : List Reg}

/-- The instruction has no effect and defines nothing that is left. -/
structure Idle (dead : List Reg) (i : Instr) : Prop where
  effect : i.hasEffect = false
  gone : ∀ r ∈ i.defs, r.Gone dead

theorem Idle.append {i : Instr} (h : i.Idle dead) : i.Idle (dead ++ dead') :=
  ⟨h.effect, fun r hr => (h.gone r hr).append⟩

theorem Idle.of_retired {i : Instr} (h : (i.mapDefs (Reg.retired dead)).Idle dead') :
    i.Idle (dead ++ dead') where
  effect := by simpa using h.effect
  gone r hr := by
    have hmem : r.retired dead ∈ (i.mapDefs (Reg.retired dead)).defs := by
      rw [defs_mapDefs]
      exact List.mem_map_of_mem hr
    exact (h.gone _ hmem).of_retired

theorem Fits.mapDefs {i : Instr} (h : i.Fits) (σ : Reg → Reg) : (i.mapDefs σ).Fits := by
  cases i with
  | call handle args results => simpa [Fits, Instr.mapDefs] using h
  | _ => exact h

theorem mapDefs_id (i : Instr) : i.mapDefs id = i := by
  cases i with
  | foreign f effect => cases f; simp [mapDefs, Foreign.mapDefs]
  | _ => simp [mapDefs]

theorem mapDefs_comp (σ τ : Reg → Reg) (i : Instr) :
    i.mapDefs (τ ∘ σ) = (i.mapDefs σ).mapDefs τ := by
  cases i with
  | foreign f effect => simp [mapDefs, Foreign.mapDefs]
  | _ => simp [mapDefs]

end Instr

namespace Terminator

theorem mapDefs_id (t : Terminator) : t.mapDefs id = t := by
  cases t with
  | foreign f succs => cases f; simp [mapDefs, Foreign.mapDefs]
  | _ => rfl

theorem mapDefs_comp (σ τ : Reg → Reg) (t : Terminator) :
    t.mapDefs (τ ∘ σ) = (t.mapDefs σ).mapDefs τ := by
  cases t with
  | foreign f succs => simp [mapDefs, Foreign.mapDefs]
  | _ => rfl

theorem Known.mapDefs_eq {t : Terminator} (h : t.Known) (σ : Reg → Reg) : t.mapDefs σ = t := by
  cases t with
  | foreign f succs => exact h.elim
  | _ => rfl

end Terminator

namespace Block

variable {dead dead' : List Reg} {b b' b'' : Block}

theorem mem_uses_of_phi {φ : Phi} (hφ : φ ∈ b.phis) {r : Reg} (hr : r ∈ φ.uses) : r ∈ b.uses :=
  List.mem_append_left _ (List.mem_append_left _ (List.mem_flatMap.mpr ⟨φ, hφ, hr⟩))

theorem mem_uses_of_instr {i : Instr} (hi : i ∈ b.instrs) {r : Reg} (hr : r ∈ i.uses) :
    r ∈ b.uses :=
  List.mem_append_left _ (List.mem_append_right _ (List.mem_flatMap.mpr ⟨i, hi, hr⟩))

theorem mem_uses_of_term {r : Reg} (hr : r ∈ b.term.uses) : r ∈ b.uses :=
  List.mem_append_right _ hr

theorem successors_retire (dead : List Reg) (b : Block) :
    (b.retire dead).term.successors = b.term.successors := Terminator.successors_mapDefs _ _

/-- The second block is the first with dead definitions retired and some of the
idle nodes left out. -/
structure Thinned (dead : List Reg) (b b' : Block) : Prop where
  label : b'.label = b.label
  phis : Thin (Phi.mapDefs (Reg.retired dead)) (Phi.Idle dead) b.phis b'.phis
  instrs : Thin (Instr.mapDefs (Reg.retired dead)) (Instr.Idle dead) b.instrs b'.instrs
  term : b'.term = b.term.mapDefs (Reg.retired dead)

theorem thinned_compact_retire (dead : List Reg) (b : Block) :
    b.Thinned dead (b.retire dead).compact where
  label := rfl
  phis := by
    apply Thin.filter_map
    intro φ hφ
    have hdst : φ.dst.retired dead = .zero := by
      simp only [keepsPhi, decide_eq_false_iff_not, not_not] at hφ
      exact hφ
    exact Reg.retired_eq_zero_iff.mp hdst
  instrs := by
    apply Thin.filter_map
    intro i hi
    simp only [keepsInstr, Bool.or_eq_false_iff, Instr.hasEffect_mapDefs, Instr.defs_mapDefs,
      List.any_map, List.any_eq_false] at hi
    obtain ⟨⟨heffect, -⟩, hzero⟩ := hi
    refine ⟨heffect, fun r hr => Reg.retired_eq_zero_iff.mp ?_⟩
    simpa using hzero r hr
  term := rfl

theorem Thinned.refl (b : Block) : b.Thinned [] b := by
  refine ⟨rfl, ?_, ?_, ?_⟩ <;> rw [Reg.retired_nil]
  · exact Thin.refl (fun _ => rfl) _
  · exact Thin.refl Instr.mapDefs_id _
  · exact (Terminator.mapDefs_id _).symm

theorem Thinned.trans (h : b.Thinned dead b') (h' : b'.Thinned dead' b'') :
    b.Thinned (dead ++ dead') b'' := by
  refine ⟨h'.label.trans h.label, ?_, ?_, ?_⟩ <;> rw [Reg.retired_append]
  · exact h.phis.trans h'.phis (fun _ => rfl) (fun _ => Reg.Gone.append)
      fun _ => Reg.Gone.of_retired
  · exact h.instrs.trans h'.instrs (Instr.mapDefs_comp _ _) (fun _ => Instr.Idle.append)
      fun _ => Instr.Idle.of_retired
  · rw [h'.term, h.term, Terminator.mapDefs_comp]

theorem Thinned.successors_eq (h : b.Thinned dead b') : b'.term.successors = b.term.successors := by
  rw [h.term, Terminator.successors_mapDefs]

theorem Thinned.mem_uses (h : b.Thinned dead b') {r : Reg} (hr : r ∈ b'.uses) : r ∈ b.uses := by
  simp only [uses, List.mem_append, List.mem_flatMap, h.term, Terminator.uses_mapDefs] at hr
  rcases hr with (⟨φ', hφ', hr⟩ | ⟨i', hi', hr⟩) | hr
  · obtain ⟨φ, hφ, rfl⟩ := h.phis.exists_of_mem hφ'
    exact mem_uses_of_phi hφ hr
  · obtain ⟨i, hi, rfl⟩ := h.instrs.exists_of_mem hi'
    rw [Instr.uses_mapDefs] at hr
    exact mem_uses_of_instr hi hr
  · exact mem_uses_of_term hr

/-- A thinned block still defines what is not dead, and nothing new. -/
theorem Thinned.mem_defs_iff (h : b.Thinned dead b') {r : Reg} (hz : r ≠ .zero) :
    r ∈ b'.defs ↔ r ∈ b.defs ∧ r ∉ dead := by
  simp only [defs, List.mem_append, List.mem_flatMap, List.mem_map, h.term,
    Terminator.defs_mapDefs, Reg.retired_eq_iff hz]
  constructor
  · rintro ((⟨φ', hφ', hr⟩ | ⟨i', hi', hr⟩) | ⟨s, hs, rfl, hd⟩)
    · obtain ⟨φ, hφ, rfl⟩ := h.phis.exists_of_mem hφ'
      obtain ⟨hdst, hd⟩ := (Reg.retired_eq_iff hz).mp hr
      exact ⟨Or.inl (Or.inl ⟨φ, hφ, hdst⟩), hd⟩
    · obtain ⟨i, hi, rfl⟩ := h.instrs.exists_of_mem hi'
      rw [Instr.defs_mapDefs, List.mem_map] at hr
      obtain ⟨s, hs, hsr⟩ := hr
      obtain ⟨rfl, hd⟩ := (Reg.retired_eq_iff hz).mp hsr
      exact ⟨Or.inl (Or.inr ⟨i, hi, hs⟩), hd⟩
    · exact ⟨Or.inr hs, hd⟩
  · rintro ⟨(⟨φ, hφ, rfl⟩ | ⟨i, hi, hr⟩) | hr, hd⟩
    · rcases h.phis.mem_or_idle hφ with hmem | hgone | hdead
      · exact Or.inl (Or.inl ⟨_, hmem, Reg.retired_of_not_mem hd⟩)
      · exact absurd hgone hz
      · exact absurd hdead hd
    · rcases h.instrs.mem_or_idle hi with hmem | hidle
      · refine Or.inl (Or.inr ⟨_, hmem, ?_⟩)
        rw [Instr.defs_mapDefs, List.mem_map]
        exact ⟨r, hr, Reg.retired_of_not_mem hd⟩
      · exact absurd (hidle.gone r hr) (not_or.mpr ⟨hz, hd⟩)
    · exact Or.inr ⟨r, hr, rfl, hd⟩

theorem Thinned.named_defs_sublist (h : b.Thinned dead b') :
    (Layout.named b'.defs).Sublist (Layout.named b.defs) := by
  have hphis := h.phis.named_flatMap_sublist (D := fun φ => [φ.dst]) fun φ =>
    Reg.named_map_retired_sublist dead [φ.dst]
  have hinstrs := h.instrs.named_flatMap_sublist (D := Instr.defs) fun i => by
    rw [Instr.defs_mapDefs]
    exact Reg.named_map_retired_sublist dead _
  have hterm := Reg.named_map_retired_sublist dead b.term.defs
  simp only [← List.map_eq_flatMap] at hphis
  simp only [defs, h.term, Terminator.defs_mapDefs, Layout.named_append]
  exact (hphis.append hinstrs).append hterm

end Block

namespace Graph

variable {dead dead' : List Reg} {g g' g'' : Graph}

/-- A change that keeps successors changes the blocks of the walk. -/
theorem walk_mapReachable (g : Graph) (f : Block → Block)
    (hf : ∀ b, (f b).term.successors = b.term.successors) :
    (g.mapReachable f).walk = g.walk.map fun e => (e.1, f e.2) := by
  simp only [walk, pick, postOrder_mapReachable g f hf, List.map_filterMap]
  apply List.filterMap_congr
  intro id hid
  simp only [block?_mapReachable, Option.map_map]
  congr 1
  funext b
  simp [hid]

/-- The second graph is the first with its reachable blocks thinned, and reads
none of the dead registers. -/
structure Thinned (dead : List Reg) (g g' : Graph) : Prop where
  entry : g'.entry = g.entry
  size : g'.size = g.size
  successors : g'.successors = g.successors
  blocks : List.Forall₂ (fun e e' => e'.1 = e.1 ∧ e.2.Thinned dead e'.2) g.walk g'.walk
  unread : ∀ r ∈ g'.uses, r ∉ dead

namespace Thinned

theorem refl (g : Graph) : g.Thinned [] g where
  entry := rfl
  size := rfl
  successors := rfl
  blocks := List.forall₂_same.mpr fun e _ => ⟨rfl, .refl e.2⟩
  unread _ _ := List.not_mem_nil

theorem postOrder_eq (h : g.Thinned dead g') : g'.postOrder = g.postOrder := by
  simp [postOrder, h.entry, h.size, h.successors]

theorem predecessors_eq (h : g.Thinned dead g') : g'.predecessors = g.predecessors := by
  have hadd : g'.addEdges = g.addEdges := by
    funext table id
    simp [addEdges, h.successors]
  simp [predecessors, h.postOrder_eq, hadd]

/-- Every reachable block is a thinned one. -/
theorem exists_of_mem_walk (h : g.Thinned dead g') {id : Label} {b' : Block}
    (hb : (id, b') ∈ g'.walk) : ∃ b, (id, b) ∈ g.walk ∧ b.Thinned dead b' := by
  obtain ⟨⟨i, b⟩, he, hid, hthin⟩ := Sequencing.exists_of_mem_right h.blocks hb
  cases hid
  exact ⟨b, he, hthin⟩

/-- Every reachable block has been thinned. -/
theorem exists_thinned (h : g.Thinned dead g') {id : Label} {b : Block} (hb : (id, b) ∈ g.walk) :
    ∃ b', (id, b') ∈ g'.walk ∧ b.Thinned dead b' := by
  obtain ⟨hid, hblock⟩ := mem_walk.mp hb
  obtain ⟨b', hb'⟩ := exists_block?_of_mem_postOrder (h.postOrder_eq ▸ hid)
  have hmem := mem_walk.mpr ⟨h.postOrder_eq ▸ hid, hb'⟩
  obtain ⟨c, hc, hthin⟩ := h.exists_of_mem_walk hmem
  cases hblock.symm.trans (mem_walk.mp hc).2
  exact ⟨b', hmem, hthin⟩

theorem mem_uses (h : g.Thinned dead g') {r : Reg} (hr : r ∈ g'.uses) : r ∈ g.uses := by
  obtain ⟨⟨id, b'⟩, he, hr⟩ := List.mem_flatMap.mp hr
  obtain ⟨b, hb, hthin⟩ := h.exists_of_mem_walk he
  exact List.mem_flatMap.mpr ⟨(id, b), hb, hthin.mem_uses hr⟩

/-- A thinned graph defines the registers that are not dead. -/
theorem mem_defs_iff (h : g.Thinned dead g') {r : Reg} (hz : r ≠ .zero) :
    r ∈ g'.defs ↔ r ∈ g.defs ∧ r ∉ dead := by
  simp only [defs, List.mem_flatMap]
  constructor
  · rintro ⟨⟨id, b'⟩, he, hr⟩
    obtain ⟨b, hb, hthin⟩ := h.exists_of_mem_walk he
    obtain ⟨hr, hd⟩ := (hthin.mem_defs_iff hz).mp hr
    exact ⟨⟨(id, b), hb, hr⟩, hd⟩
  · rintro ⟨⟨⟨id, b⟩, he, hr⟩, hd⟩
    obtain ⟨b', hb', hthin⟩ := h.exists_thinned he
    exact ⟨(id, b'), hb', (hthin.mem_defs_iff hz).mpr ⟨hr, hd⟩⟩

theorem named_defs_sublist (h : g.Thinned dead g') :
    (Layout.named g'.defs).Sublist (Layout.named g.defs) := by
  unfold defs
  have hblocks := h.blocks
  generalize g.walk = es at hblocks ⊢
  generalize g'.walk = es' at hblocks ⊢
  induction hblocks with
  | nil => exact List.Sublist.refl _
  | cons he _ ih =>
      rw [List.flatMap_cons, List.flatMap_cons, Layout.named_append, Layout.named_append]
      exact he.2.named_defs_sublist.append ih

theorem trans (h : g.Thinned dead g') (h' : g'.Thinned dead' g'') :
    g.Thinned (dead ++ dead') g'' where
  entry := h'.entry.trans h.entry
  size := h'.size.trans h.size
  successors := h'.successors.trans h.successors
  blocks := by
    have hblocks := h'.blocks
    have hwalk := h.blocks
    generalize g.walk = es at hwalk ⊢
    generalize g'.walk = es' at hwalk hblocks
    generalize g''.walk = es'' at hblocks ⊢
    induction hwalk generalizing es'' with
    | nil =>
        cases hblocks
        exact .nil
    | cons he _ ih =>
        cases hblocks with
        | cons he' hrest => exact .cons ⟨he'.1.trans he.1, he.2.trans he'.2⟩ (ih _ hrest)
  unread r hr := by
    rw [List.mem_append, not_or]
    exact ⟨h.unread r (h'.mem_uses hr), h'.unread r hr⟩

/-- What has been thinned stays in order, for names that thinning leaves alone. -/
theorem inOrder {name : Label → Block → Label} (h : g.Thinned dead g') (hg : g.InOrder name)
    (hname : ∀ id b b', b.Thinned dead b' → name id b' = name id b) : g'.InOrder name where
  single := h.named_defs_sublist.nodup hg.single
  incoming id b' hb' φ' hφ' := by
    obtain ⟨b, hb, hthin⟩ := h.exists_of_mem_walk hb'
    obtain ⟨φ, hφ, rfl⟩ := hthin.phis.exists_of_mem hφ'
    rw [h.predecessors_eq, hname id b b' hthin]
    exact hg.incoming id b hb φ hφ
  defined r hr := by
    by_cases hz : r = .zero
    · exact Or.inl hz
    · have hd := (hg.defined r (h.mem_uses hr)).resolve_left hz
      exact Or.inr ((h.mem_defs_iff hz).mpr ⟨hd, h.unread r hr⟩)

theorem inOrder_byLabel (h : g.Thinned dead g') (hg : g.InOrder byLabel) : g'.InOrder byLabel :=
  h.inOrder hg fun _ _ _ hthin => hthin.label

theorem encodable (h : g.Thinned dead g') (hg : g.Encodable) : g'.Encodable where
  entry b' hb' := by
    have hwalk := mem_walk.mpr ⟨g'.entry_mem_postOrder, hb'⟩
    obtain ⟨b, hb, hthin⟩ := h.exists_of_mem_walk hwalk
    rw [h.entry] at hb
    have hnil := hg.entry b (mem_walk.mp hb).2
    refine List.eq_nil_iff_forall_not_mem.mpr fun φ' hφ' => ?_
    obtain ⟨φ, hφ, -⟩ := hthin.phis.exists_of_mem hφ'
    rw [hnil] at hφ
    cases hφ
  instrs id b' hb' i' hi' := by
    obtain ⟨b, hb, hthin⟩ := h.exists_of_mem_walk hb'
    obtain ⟨i, hi, rfl⟩ := hthin.instrs.exists_of_mem hi'
    exact (hg.instrs id b hb i hi).mapDefs _
  known id b' hb' := by
    obtain ⟨b, hb, hthin⟩ := h.exists_of_mem_walk hb'
    rw [hthin.term, (hg.known id b hb).mapDefs_eq]
    exact hg.known id b hb
  inside id b' hb' := by
    obtain ⟨b, hb, hthin⟩ := h.exists_of_mem_walk hb'
    rw [hthin.successors_eq, h.size]
    exact hg.inside id b hb

/-- Lowering accepts what has been thinned. -/
theorem lowerable (h : g.Thinned dead g') (hg : g.Lowerable) : g'.Lowerable := by
  obtain ⟨horder, hencodable⟩ := lowerable_iff.mp hg
  exact lowerable_iff.mpr ⟨h.inOrder horder fun _ _ _ _ => rfl, h.encodable hencodable⟩

end Thinned

theorem thinned_sweepRound (g : Graph) : g.Thinned g.deadRegs g.sweepRound.1 := by
  have hretire := Block.successors_retire g.deadRegs
  have hcompact : ∀ b : Block, b.compact.term.successors = b.term.successors := fun _ => rfl
  have hblocks : List.Forall₂ (fun e e' => e'.1 = e.1 ∧ e.2.Thinned g.deadRegs e'.2) g.walk
      g.sweepRound.1.walk := by
    simp only [sweepRound, walk_mapReachable _ _ hcompact, walk_mapReachable _ _ hretire,
      List.map_map, List.forall₂_map_right_iff]
    exact List.forall₂_same.mpr fun e _ => ⟨rfl, Block.thinned_compact_retire _ e.2⟩
  refine ⟨rfl, ?_, ?_, hblocks, ?_⟩
  · simp [sweepRound]
  · simp only [sweepRound, successors_mapReachable _ _ hcompact,
      successors_mapReachable _ _ hretire]
  · intro r hr hdead
    obtain ⟨⟨id, b'⟩, he, hr⟩ := List.mem_flatMap.mp hr
    obtain ⟨e, he, hid, hthin⟩ := Sequencing.exists_of_mem_right hblocks he
    have huse : r ∈ g.uses := List.mem_flatMap.mpr ⟨e, he, hthin.mem_uses hr⟩
    simp [deadRegs, huse] at hdead

theorem exists_thinned_sweepRounds (n : Nat) (g : Graph) :
    ∃ dead, g.Thinned dead (sweepRounds n g).1 := by
  induction n generalizing g with
  | zero => exact ⟨[], .refl g⟩
  | succ n ih =>
      have hround := g.thinned_sweepRound
      simp only [sweepRounds]
      split
      · exact ⟨_, hround⟩
      · obtain ⟨dead, hrest⟩ := ih g.sweepRound.1
        exact ⟨_, hround.trans hrest⟩

/-- A sweep thins the graph. -/
theorem exists_thinned_sweep (g : Graph) : ∃ dead, g.Thinned dead g.sweep.1 :=
  exists_thinned_sweepRounds _ g

end Graph

end WireFlow
