import Mathlib.Algebra.Order.BigOperators.Group.Finset
import MemMapIPC.Names

/-!
# Who keeps a name from being created

The count the system keeps of a name is of the handles and mappings the objects and probes have
(`Naming.Counted`): every step opens what it gains and closes what it gives up. So a server's create
fails as long as anyone has the name open, and a client, an observer or a probe is someone.
-/

namespace MemMapIPC

section Count

variable {ν : Type*} [DecidableEq ν] {handles handles' : Handles ν} {name : ν}

theorem Handles.opened_eq (name n : ν) :
    handles.opened name n = handles n + [name].count n := by
  rw [opened, List.count_singleton, Function.update_apply]
  by_cases h : n = name
  · simp [h]
  · simp [h, Ne.symm h]

theorem Handles.closed_add (handles : Handles ν) (v : Option ν) {n : ν}
    (h : v.toList.count n ≤ handles n) :
    handles.closed v n + v.toList.count n = handles n := by
  rcases v with _ | name
  · rfl
  · rw [Option.toList_some, List.count_singleton] at h ⊢
    rw [closed, Function.update_apply]
    by_cases hn : n = name
    · simp only [hn, if_true, beq_self_eq_true] at h ⊢
      omega
    · simp [hn, Ne.symm hn]

theorem Handles.of_createOnly (h : handles.createOnly name = .ok handles') :
    handles' = handles.opened name := by
  unfold createOnly at h
  split_ifs at h
  exact (Except.ok.inj h).symm

theorem Handles.of_openOnly (h : handles.openOnly name = .ok handles') :
    handles' = handles.opened name := by
  unfold openOnly at h
  split_ifs at h
  exact (Except.ok.inj h).symm

theorem NamedObject.of_construct {o : NamedObject ν} (h : o.construct handles name = .ok handles') :
    handles' = handles.opened name := by
  unfold construct at h
  split at h
  · exact Handles.of_createOnly h
  · exact Handles.of_openOnly h
  · exact Handles.of_openOnly h

/-- A step opens what the object gains and closes what it gives up. -/
theorem NamedObject.step_count {o o' : NamedObject ν} {e : Event ν}
    (h : o.step handles e = some (o', handles')) {n : ν} (hle : o.held.count n ≤ handles n) :
    handles' n + o.held.count n = handles n + o'.held.count n := by
  obtain ⟨kind, stage, sharedMemoryObject, mappedRegion⟩ := o
  simp only [held, List.count_append] at hle ⊢
  cases e with
  | setMemoryID name =>
    cases stage <;> simp only [step, reduceCtorEq, Option.some.injEq, Prod.mk.injEq] at h
    obtain ⟨rfl, rfl⟩ := h
    split_ifs <;> rfl
  | mappingFails =>
    cases stage <;> simp only [step, reduceCtorEq, Option.some.injEq, Prod.mk.injEq] at h
    obtain ⟨rfl, rfl⟩ := h
    rfl
  | destroy =>
    cases stage <;> simp only [step, reduceCtorEq, Option.some.injEq, Prod.mk.injEq] at h
    obtain ⟨rfl, rfl⟩ := h
    have hclosed := Handles.closed_add handles mappedRegion (n := n) (by omega)
    simp only [Option.toList_none, List.count_nil] at hle ⊢
    omega
  | proceed =>
    cases stage with
    | idle => cases h
    | remove name =>
      simp only [step, Option.some.injEq, Prod.mk.injEq] at h
      obtain ⟨rfl, rfl⟩ := h
      rfl
    | construct name =>
      simp only [step] at h
      split at h <;> simp only [Option.some.injEq, Prod.mk.injEq] at h <;> obtain ⟨rfl, rfl⟩ := h
      · rfl
      · rename_i hc
        rw [of_construct hc, Handles.opened_eq]
        simp only [List.count_nil]
        omega
    | assign name =>
      simp only [step, Option.some.injEq, Prod.mk.injEq] at h
      obtain ⟨rfl, rfl⟩ := h
      have hclosed := Handles.closed_add handles sharedMemoryObject (n := n) (by omega)
      simp only [Option.toList_some, List.count_nil] at hle ⊢
      omega
    | map =>
      rcases sharedMemoryObject with _ | name
      · cases h
      · simp only [step, Option.map_some, Option.some.injEq, Prod.mk.injEq] at h
        obtain ⟨rfl, rfl⟩ := h
        rw [Handles.opened_eq]
        simp only [List.count_nil]
        omega
    | assignRegion name =>
      simp only [step, Option.some.injEq, Prod.mk.injEq] at h
      obtain ⟨rfl, rfl⟩ := h
      have hclosed := Handles.closed_add handles mappedRegion (n := n) (by omega)
      simp only [Option.toList_some, List.count_nil] at hle ⊢
      omega
    | destroy =>
      simp only [step, Option.some.injEq, Prod.mk.injEq] at h
      obtain ⟨rfl, rfl⟩ := h
      have hclosed := Handles.closed_add handles sharedMemoryObject (n := n) (by omega)
      simp only [Option.toList_none, List.count_nil] at hle ⊢
      omega

theorem Probe.step_count {isHeld : ν → Prop} {p p' : Probe ν}
    (h : p.step isHeld handles = some (p', handles')) {n : ν} (hle : p.held.count n ≤ handles n) :
    handles' n + p.held.count n = handles n + p'.held.count n := by
  cases p with
  | idle => cases h
  | returned name free wasHeld => cases h
  | create name =>
    simp only [step] at h
    split at h <;> simp only [Option.some.injEq, Prod.mk.injEq] at h <;> obtain ⟨rfl, rfl⟩ := h
    · rename_i hc
      rw [Handles.of_createOnly hc, Handles.opened_eq]
      rfl
    · rfl
    · rfl
  | release name wasHeld =>
    simp only [step, Option.some.injEq, Prod.mk.injEq] at h
    obtain ⟨rfl, rfl⟩ := h
    exact Handles.closed_add _ (some name) hle
  | remove name wasHeld =>
    simp only [step, Option.some.injEq, Prod.mk.injEq] at h
    obtain ⟨rfl, rfl⟩ := h
    rfl

/-- Over the members of a family, changing one changes the sum by as much. -/
theorem sum_update_add {ι α : Type*} [Fintype ι] [DecidableEq ι] (g : α → ℕ) (f : ι → α) (i : ι)
    (a : α) : ∑ j, g (Function.update f i a j) + g (f i) = ∑ j, g (f j) + g a := by
  have h := Finset.add_sum_erase Finset.univ (fun j => g (Function.update f i a j))
    (Finset.mem_univ i)
  have h' := Finset.add_sum_erase Finset.univ (fun j => g (f j)) (Finset.mem_univ i)
  have hrest : ∑ j ∈ Finset.univ.erase i, g (Function.update f i a j)
      = ∑ j ∈ Finset.univ.erase i, g (f j) :=
    Finset.sum_congr rfl fun j hj => by rw [Function.update_of_ne (Finset.ne_of_mem_erase hj)]
  simp only [Function.update_self] at h
  omega

end Count

namespace Naming

variable {ι κ ν : Type*} [DecidableEq ν] [Fintype ι] [Fintype κ] {x y : Naming ι κ ν}

/-- The system counts what the objects and the probes have open. -/
def Counted (x : Naming ι κ ν) : Prop :=
  ∀ n, x.handles n = ∑ i, (x.objects i).held.count n + ∑ k, (x.probes k).held.count n

theorem Counted.object_le (h : x.Counted) (i : ι) (n : ν) :
    (x.objects i).held.count n ≤ x.handles n := by
  have hsum := Finset.single_le_sum (fun j _ => Nat.zero_le ((x.objects j).held.count n))
    (Finset.mem_univ i)
  rw [h n]
  exact hsum.trans (Nat.le_add_right _ _)

theorem Counted.probe_le (h : x.Counted) (k : κ) (n : ν) :
    (x.probes k).held.count n ≤ x.handles n := by
  have hsum := Finset.single_le_sum (fun j _ => Nat.zero_le ((x.probes j).held.count n))
    (Finset.mem_univ k)
  rw [h n]
  exact hsum.trans (Nat.le_add_left _ _)

/-- A name has no handles if and only if nobody has it open. -/
theorem Counted.eq_zero_iff (h : x.Counted) (n : ν) : x.handles n = 0 ↔ ¬x.IsHeld n := by
  simp only [h n, Nat.add_eq_zero_iff, Finset.sum_eq_zero_iff, Finset.mem_univ, true_imp_iff,
    List.count_eq_zero, IsHeld, not_or, not_exists]

/-- A probe that has made its object, or has said the name is free, found nobody with it open. -/
def Honest (p : Probe ν) : Prop :=
  match p with
  | .release _ wasHeld | .remove _ wasHeld | .returned _ true wasHeld => ¬wasHeld
  | _ => True

theorem honest_step {p p' : Probe ν} {handles : Handles ν} (hx : x.Counted)
    (h : p.step x.IsHeld x.handles = some (p', handles)) (hp : Honest p) : Honest p' := by
  cases p with
  | idle => cases h
  | returned name free wasHeld => cases h
  | create name =>
    have hfree := hx.eq_zero_iff name
    simp only [Probe.step, Handles.createOnly] at h
    split_ifs at h with h0
    · obtain ⟨rfl, -⟩ := Prod.mk.inj (Option.some_inj.1 h)
      exact hfree.1 h0
    · obtain ⟨rfl, -⟩ := Prod.mk.inj (Option.some_inj.1 h)
      trivial
  | release name wasHeld =>
    obtain ⟨rfl, -⟩ := Prod.mk.inj (Option.some_inj.1 h)
    exact hp
  | remove name wasHeld =>
    obtain ⟨rfl, -⟩ := Prod.mk.inj (Option.some_inj.1 h)
    exact hp

theorem creates_iff (hx : x.Counted) {i : ι} {name : ν} (hi : (x.objects i).kind = .server) :
    x.Creates i name ↔ ¬x.IsHeld name := by
  have hc : (x.objects i).construct x.handles name = x.handles.createOnly name := by
    rw [NamedObject.construct, hi]
  rw [← hx.eq_zero_iff, Creates, hc, Handles.createOnly]
  split_ifs with h0 <;> simp [h0]

section Runs

variable [DecidableEq ι] [DecidableEq κ] {kinds : ι → Kind}

theorem Counted.step (h : x.Counted) (hs : Step x y) : y.Counted := by
  intro n
  have hn := h n
  cases hs with
  | @object i e o handles ho =>
    have hcount := NamedObject.step_count ho (h.object_le i n)
    have hsum := sum_update_add (fun o : NamedObject ν => o.held.count n) x.objects i o
    simp only at hsum ⊢
    omega
  | ask k name hk =>
    have hsum := sum_update_add (fun p : Probe ν => p.held.count n) x.probes k (.create name)
    have hidle : (x.probes k).held = [] := by
      cases hp : x.probes k with
      | release name wasHeld => simp [hp, Probe.step] at hk
      | _ => rfl
    have hcreate : (Probe.create name).held = [] := rfl
    simp only [hidle, hcreate, List.count_nil] at hsum ⊢
    omega
  | @probe k p handles hp =>
    have hcount := Probe.step_count hp (h.probe_le k n)
    have hsum := sum_update_add (fun p : Probe ν => p.held.count n) x.probes k p
    simp only at hsum ⊢
    omega

theorem counted (h : Reached kinds x) : x.Counted := by
  induction h with
  | refl =>
    intro n
    simp [start, NamedObject.held, Probe.held]
  | tail _ hs ih => exact ih.step hs

theorem honest (h : Reached kinds x) (k : κ) : Honest (x.probes k) := by
  induction h with
  | refl => trivial
  | @tail x y hx hs ih =>
    cases hs with
    | object i e ho => exact ih
    | ask k' name hk =>
      rcases eq_or_ne k k' with rfl | hne
      · simp only [Function.update_self]
        trivial
      · simpa only [Function.update_of_ne hne] using ih
    | probe k' hp =>
      rcases eq_or_ne k k' with rfl | hne
      · simp only [Function.update_self]
        exact honest_step (counted hx) hp ih
      · simpa only [Function.update_of_ne hne] using ih

omit [Fintype ι] [Fintype κ] in
theorem run_reached {l : List (ι × Event ν)} (h : x.run l = some y) :
    Relation.ReflTransGen Step x y := by
  induction l generalizing x with
  | nil =>
    cases h
    exact .refl
  | cons q l ih =>
    obtain ⟨⟨o, handles⟩, ho, h⟩ := Option.bind_eq_some_iff.1 h
    exact .head (.object q.1 q.2 ho) (ih h)

omit [Fintype ι] [Fintype κ] [DecidableEq κ] in
theorem run_probes {l : List (ι × Event ν)} (h : x.run l = some y) : y.probes = x.probes := by
  induction l generalizing x with
  | nil =>
    cases h
    rfl
  | cons q l ih =>
    obtain ⟨⟨o, handles⟩, -, h⟩ := Option.bind_eq_some_iff.1 h
    exact (ih h :)

/-- With probe `k` there instead. -/
def atProbe (x : Naming ι κ ν) (k : κ) (p : Probe ν) (handles : Handles ν) : Naming ι κ ν :=
  { x with handles, probes := Function.update x.probes k p }

omit [Fintype ι] [Fintype κ] in
theorem atProbe_step {k : κ} {p p' : Probe ν} {handles handles' : Handles ν}
    (h : p.step (x.atProbe k p handles).IsHeld handles = some (p', handles')) :
    Step (x.atProbe k p handles) (x.atProbe k p' handles') := by
  have hprobe : (x.atProbe k p handles).probes k = p := Function.update_self ..
  have hs := Step.probe (x := x.atProbe k p handles) k (by rw [hprobe]; exact h)
  unfold atProbe at hs ⊢
  rwa [Function.update_idem] at hs

omit [Fintype ι] [Fintype κ] in
/-- A probe for a name nobody has open comes to say that it is free. -/
theorem probe_returns {k : κ} {name : ν} (hk : x.probes k = .idle) (hfree : x.handles name = 0) :
    ∃ (wasHeld : Prop) (handles : Handles ν),
      Relation.ReflTransGen Step x (x.atProbe k (.returned name true wasHeld) handles) := by
  have hask : Step x (x.atProbe k (.create name) x.handles) := .ask k name (by rw [hk]; rfl)
  have hcreate := atProbe_step (x := x) (k := k) (p := .create name)
    (by rw [Probe.step, Handles.createOnly, if_pos hfree])
  have hrelease : ∀ (wasHeld : Prop) (handles : Handles ν),
      Step (x.atProbe k (.release name wasHeld) handles)
        (x.atProbe k (.remove name wasHeld) (handles.closed (some name))) :=
    fun _ _ => atProbe_step rfl
  have hremove : ∀ (wasHeld : Prop) (handles : Handles ν),
      Step (x.atProbe k (.remove name wasHeld) handles)
        (x.atProbe k (.returned name true wasHeld) handles) :=
    fun _ _ => atProbe_step rfl
  exact ⟨_, _, .head hask (.head hcreate (.head (hrelease _ _) (.single (hremove _ _))))⟩

end Runs

end Naming

/-- In every state of every interleaving, a server's create of a name no server has open succeeds
if and only if no client, observer or probe has it open either; and a probe that says a name is free
found nobody with it open. -/
theorem server_creates_iff {ι κ ν : Type*} [DecidableEq ι] [DecidableEq κ] [DecidableEq ν]
    [Fintype ι] [Fintype κ] (kinds : ι → Kind) {x : Naming ι κ ν} (hx : Naming.Reached kinds x) :
    (∀ i name, x.Creating i name →
      (x.Creates i name ↔
        (∀ j, (x.objects j).kind ≠ .server → name ∉ (x.objects j).held)
          ∧ ∀ k, name ∉ (x.probes k).held))
      ∧ ∀ k name wasHeld, x.probes k = .returned name true wasHeld → ¬wasHeld := by
  refine ⟨fun i name hi => ?_, fun k name wasHeld hk => ?_⟩
  · rw [Naming.creates_iff (Naming.counted hx) hi.server, Naming.IsHeld, not_or, not_exists,
      not_exists]
    refine and_congr_left fun _ => ⟨fun h j _ => h j, fun h j => ?_⟩
    by_cases hj : (x.objects j).kind = .server
    · exact hi.free_of_servers j hj
    · exact h j hj
  · have hhonest := Naming.honest hx k
    rw [hk] at hhonest
    exact hhonest

/-- Two servers and a client. -/
def smallKinds (i : Fin 3) : Kind := if i = 1 then .client else .server

/-- The first server attaches and the client does, both go, and the second server comes to its
create. -/
def bothGone : List (Fin 3 × Event Unit) :=
  (0, .setMemoryID ()) :: List.replicate 5 (0, .proceed)
    ++ (1, .setMemoryID ()) :: List.replicate 4 (1, .proceed)
    ++ [(0, .destroy), (0, .proceed), (1, .destroy), (1, .proceed), (2, .setMemoryID ()),
      (2, .proceed)]

theorem bothGone_run :
    ((Naming.start smallKinds : Naming (Fin 3) (Fin 1) Unit).run bothGone).map (fun x =>
        (fun j => ((x.objects j).kind, (x.objects j).held), (x.objects 2).stage, x.handles ()))
      = some (fun j => (smallKinds j, []), .construct (), 0) := by
  decide +kernel

/-- A probe asks for the name too before the second server creates it. -/
theorem server_creates_iff_gone : ∃ (x : Naming (Fin 3) (Fin 1) Unit) (wasHeld : Prop),
    Naming.Reached smallKinds x ∧ x.Creating 2 () ∧ x.Creates 2 ()
      ∧ x.probes 0 = .returned () true wasHeld ∧ ¬wasHeld := by
  obtain ⟨y, hrun, hm⟩ := Option.map_eq_some_iff.1 bothGone_run
  obtain ⟨hobjects, hm⟩ := Prod.mk.inj hm
  obtain ⟨hstage, hhandles⟩ := Prod.mk.inj hm
  have hidle : y.probes 0 = .idle := congrFun (Naming.run_probes hrun) 0
  obtain ⟨wasHeld, handles, hprobe⟩ := Naming.probe_returns hidle hhandles
  have hheld : ∀ j, () ∉ (y.objects j).held := by
    intro j
    rw [show (y.objects j).held = [] from congrArg Prod.snd (congrFun hobjects j)]
    exact List.not_mem_nil
  let x := y.atProbe 0 (.returned () true wasHeld) handles
  have hx : Naming.Reached smallKinds x := (Naming.run_reached hrun).trans hprobe
  have hi : x.Creating 2 () :=
    ⟨congrArg Prod.fst (congrFun hobjects 2), hstage, fun j _ => hheld j⟩
  obtain ⟨hcreates, hfree⟩ := server_creates_iff smallKinds hx
  refine ⟨x, wasHeld, hx, hi, (hcreates 2 () hi).2 ⟨fun j _ => hheld j, fun k => ?_⟩, rfl,
    hfree 0 () wasHeld rfl⟩
  rw [Subsingleton.elim k 0]
  exact List.not_mem_nil

/-- The first server attaches and the client does, the first server goes, and the second one comes
to its create. -/
def leftoverClient : List (Fin 3 × Event Unit) :=
  (0, .setMemoryID ()) :: List.replicate 5 (0, .proceed)
    ++ (1, .setMemoryID ()) :: List.replicate 4 (1, .proceed)
    ++ [(0, .destroy), (0, .proceed), (2, .setMemoryID ()), (2, .proceed)]

theorem leftoverClient_run :
    ((Naming.start smallKinds : Naming (Fin 3) (Fin 1) Unit).run leftoverClient).map (fun x =>
        (fun j => ((x.objects j).kind, (x.objects j).held), (x.objects 2).stage, x.handles ()))
      = some (fun j => if j = 1 then (.client, [(), ()]) else (.server, []), .construct (), 2) := by
  decide +kernel

theorem server_not_creates : ¬∀ x : Naming (Fin 3) (Fin 1) Unit, Naming.Reached smallKinds x →
    ∀ i name, x.Creating i name → x.Creates i name := by
  intro h
  obtain ⟨x, hx, hm⟩ := Option.map_eq_some_iff.1 leftoverClient_run
  obtain ⟨hobjects, hm⟩ := Prod.mk.inj hm
  obtain ⟨hstage, hhandles⟩ := Prod.mk.inj hm
  have hkind : (x.objects 2).kind = .server := congrArg Prod.fst (congrFun hobjects 2)
  have hservers : ∀ j, (x.objects j).kind = .server → () ∉ (x.objects j).held := by
    intro j hj
    have hobject := congrFun hobjects j
    split_ifs at hobject
    · rw [(Prod.mk.inj hobject).1] at hj
      cases hj
    · rw [(Prod.mk.inj hobject).2]
      exact List.not_mem_nil
  obtain ⟨handles, hc⟩ := h x (Naming.run_reached hx) 2 () ⟨hkind, hstage, hservers⟩
  simp [NamedObject.construct, hkind, Handles.createOnly, hhandles] at hc

end MemMapIPC
