import MemMapIPC.Attachment

/-!
# What a failed attach leaves

The pointers are set after everything that can throw, so they are always those for the region that
is mapped (`Intact`). The shared memory is replaced before the mapping is tried, and stays replaced
when the mapping fails.
-/

namespace MemMapIPC

namespace Kind

section Calls

variable {H ε : Type*} (k : Kind) (sizeofPtime : U64) (a : Attachment H) {t : Attempt H ε}

theorem setMemoryID_error {e : ε} (h : t.sharedMemory = .error e) :
    (k.setMemoryID sizeofPtime t a).1 = a
      ∧ (k ≠ .observer → (k.setMemoryID sizeofPtime t a).2 = some e) := by
  cases k <;> simp [setMemoryID, Attachment.serverSetMemoryID, Attachment.clientSetMemoryID,
    Attachment.observerSetMemoryID, Attachment.trySetMemoryID, h]

theorem setMemoryID_unmapped {s : H} {e : ε} (hs : t.sharedMemory = .ok s)
    (h : t.mapping = .error e) :
    (k.setMemoryID sizeofPtime t a).1 = a.assignSharedMemory s
      ∧ (k ≠ .observer → (k.setMemoryID sizeofPtime t a).2 = some e) := by
  cases k <;> simp [setMemoryID, Attachment.serverSetMemoryID, Attachment.clientSetMemoryID,
    Attachment.observerSetMemoryID, Attachment.trySetMemoryID, hs, h]

theorem setMemoryID_mapped {s : H} {region : MappedRegion} (hs : t.sharedMemory = .ok s)
    (h : t.mapping = .ok region) :
    (k.setMemoryID sizeofPtime t a).2 = none
      ∧ (k.setMemoryID sizeofPtime t a).1.sharedMemoryObject = some s
      ∧ (k.setMemoryID sizeofPtime t a).1.mappedRegion = some region
      ∧ (k.setMemoryID sizeofPtime t a).1.header
        = some (k.pointsTo sizeofPtime region.address t.bufferSize).1
      ∧ (k.setMemoryID sizeofPtime t a).1.released
        = ((a.assignSharedMemory s).assignRegion region).released := by
  cases k <;> simp [setMemoryID, Attachment.serverSetMemoryID, Attachment.clientSetMemoryID,
    Attachment.observerSetMemoryID, Attachment.trySetMemoryID, hs, h, Attachment.pointAt,
    Attachment.assignRegion, Attachment.assignSharedMemory, pointsTo]

end Calls

variable {H ε : Type*} {k : Kind} {sizeofPtime : U64} {a : Attachment H} {t : Attempt H ε}

theorem observer_rings (h : a.Intact .observer sizeofPtime) : a.rings = none := by
  rcases h with ⟨-, -, h⟩ | ⟨region, bufferSize, -, -, h⟩
  · exact h
  · exact h

theorem rings_mapped {s : H} {region : MappedRegion} (ha : a.Intact k sizeofPtime)
    (hs : t.sharedMemory = .ok s) (h : t.mapping = .ok region) :
    (k.setMemoryID sizeofPtime t a).1.rings
      = (k.pointsTo sizeofPtime region.address t.bufferSize).2 := by
  cases k with
  | observer =>
    have hrings := observer_rings ha
    simp [setMemoryID, Attachment.observerSetMemoryID, Attachment.trySetMemoryID, hs, h,
      Attachment.assignRegion, Attachment.assignSharedMemory, pointsTo, hrings]
  | _ =>
    simp [setMemoryID, Attachment.serverSetMemoryID, Attachment.clientSetMemoryID,
      Attachment.trySetMemoryID, hs, h, Attachment.pointAt, pointsTo]

/-- A call that succeeds, and one that fails either way, leaves the pointers those for the region
that is then mapped. -/
theorem intact_setMemoryID (h : a.Intact k sizeofPtime) :
    (k.setMemoryID sizeofPtime t a).1.Intact k sizeofPtime := by
  rcases hs : t.sharedMemory with e | s
  · rw [(setMemoryID_error k sizeofPtime a hs).1]
    exact h
  rcases hm : t.mapping with e | region
  · rw [(setMemoryID_unmapped k sizeofPtime a hs hm).1]
    rcases h with ⟨h1, h2, h3⟩ | ⟨region, bufferSize, h1, h2, h3⟩
    · exact .unmapped h1 h2 h3
    · exact .mapped region bufferSize h1 h2 h3
  · obtain ⟨-, -, hregion, hheader, -⟩ := setMemoryID_mapped k sizeofPtime a hs hm
    exact .mapped region t.bufferSize hregion hheader (rings_mapped h hs hm)

theorem intact_after (k : Kind) (sizeofPtime : U64) (calls : List (Attempt H ε)) :
    (k.after sizeofPtime calls).Intact k sizeofPtime := by
  induction calls using List.reverseRecOn with
  | nil => exact .unmapped rfl rfl rfl
  | append_singleton calls t ih =>
    rw [after, List.foldl_concat]
    exact intact_setMemoryID ih

/-- What the object is given it holds until it releases it. -/
theorem given_setMemoryID (k : Kind) (sizeofPtime : U64) (a : Attachment H) (t : Attempt H ε) :
    ((k.setMemoryID sizeofPtime t a).1.released ++ (k.setMemoryID sizeofPtime t a).1.held).Perm
      (a.released ++ a.held ++ t.given) := by
  rcases hs : t.sharedMemory with e | s
  · rw [(setMemoryID_error k sizeofPtime a hs).1, Attempt.given, hs, List.append_nil]
  rcases hm : t.mapping with e | region
  · rw [(setMemoryID_unmapped k sizeofPtime a hs hm).1]
    simp only [Attachment.assignSharedMemory, Attachment.held, Attempt.given, hs, hm,
      List.append_assoc]
    refine (List.Perm.append_left _ (List.Perm.append_left _ ?_))
    exact List.perm_append_comm
  · obtain ⟨-, hobject, hregion, -, hreleased⟩ := setMemoryID_mapped k sizeofPtime a hs hm
    simp only [hreleased, Attachment.held, hobject, hregion, Attachment.assignSharedMemory,
      Attachment.assignRegion, Attempt.given, hs, hm, List.append_assoc]
    rfl

theorem given_after (k : Kind) (sizeofPtime : U64) (calls : List (Attempt H ε)) :
    ((k.after sizeofPtime calls).released ++ (k.after sizeofPtime calls).held).Perm
      (calls.flatMap Attempt.given) := by
  induction calls using List.reverseRecOn with
  | nil => exact .refl _
  | append_singleton calls t ih =>
    rw [after, List.foldl_concat, List.flatMap_append, List.flatMap_singleton]
    exact (given_setMemoryID k sizeofPtime _ t).trans (ih.append_right _)

end Kind

/-- After any calls an object's pointers and rings are those for the region it has mapped, and
whatever it was given it holds or has released. A call that cannot have its shared memory changes
nothing, and one that cannot map it replaces the shared memory only; a server's and a client's are
reported to the caller. -/
theorem failed_attach_keeps {H ε : Type*} (k : Kind) (sizeofPtime : U64)
    (calls : List (Attempt H ε)) (t : Attempt H ε) :
    let a := k.after sizeofPtime calls
    let q := k.setMemoryID sizeofPtime t a
    a.Intact k sizeofPtime
      ∧ (a.released ++ a.held).Perm (calls.flatMap Attempt.given)
      ∧ (∀ e, t.sharedMemory = .error e → q.1 = a ∧ (k ≠ .observer → q.2 = some e))
      ∧ (∀ s e, t.sharedMemory = .ok s → t.mapping = .error e →
        q.1 = { a with
            sharedMemoryObject := some s
            released := a.released ++ a.sharedMemoryObject.toList.map .inl }
          ∧ (k ≠ .observer → q.2 = some e))
      ∧ ∀ s region, t.sharedMemory = .ok s → t.mapping = .ok region →
        q.2 = none ∧ q.1.sharedMemoryObject = some s ∧ q.1.mappedRegion = some region
          ∧ q.1.header = some (k.pointsTo sizeofPtime region.address t.bufferSize).1
          ∧ q.1.rings = (k.pointsTo sizeofPtime region.address t.bufferSize).2 := by
  intro a q
  have hintact := Kind.intact_after k sizeofPtime calls
  refine ⟨hintact, Kind.given_after k sizeofPtime calls,
    fun e he => Kind.setMemoryID_error k sizeofPtime a he,
    fun s e hs he => Kind.setMemoryID_unmapped k sizeofPtime a hs he, fun s region hs hr => ?_⟩
  obtain ⟨hnone, hobject, hregion, hheader, -⟩ := Kind.setMemoryID_mapped k sizeofPtime a hs hr
  exact ⟨hnone, hobject, hregion, hheader, Kind.rings_mapped hintact hs hr⟩

theorem failed_attach_keeps_region :
    let a := Kind.client.after 8 [(⟨.ok 1, .ok ⟨4096, 8192⟩, 64⟩ : Attempt ℕ ℕ)]
    let q := Kind.client.setMemoryID 8 (⟨.ok 2, .error 8, 0⟩ : Attempt ℕ ℕ) a
    q.1.mappedRegion = some ⟨4096, 8192⟩ ∧ q.1.header = a.header ∧ q.2 = some 8 := by
  intro a q
  obtain ⟨-, -, -, h, -⟩ := failed_attach_keeps .client 8
    [(⟨.ok 1, .ok ⟨4096, 8192⟩, 64⟩ : Attempt ℕ ℕ)] ⟨.ok 2, .error 8, 0⟩
  obtain ⟨hq, he⟩ := h 2 8 rfl rfl
  refine ⟨?_, ?_, he (by decide)⟩
  · rw [hq]
    rfl
  · rw [hq]

/-- A client attached to one segment opens another and cannot map it: it holds the other's shared
memory, with its pointers in the first. -/
theorem failed_attach_changes : ¬∀ (k : Kind) (calls : List (Attempt ℕ ℕ)) (t : Attempt ℕ ℕ),
    let a := k.after 8 calls
    let q := k.setMemoryID 8 t a
    ((∃ e, t.sharedMemory = .error e ∨ t.mapping = .error e) →
      q.1.sharedMemoryObject = a.sharedMemoryObject ∧ q.1.mappedRegion = a.mappedRegion
        ∧ q.1.header = a.header ∧ q.1.rings = a.rings ∧ q.2 ≠ none) := by
  intro h
  have hkept := (h .client [⟨.ok 1, .ok ⟨4096, 8192⟩, 64⟩] ⟨.ok 2, .error 8, 0⟩
    ⟨8, .inr rfl⟩).1
  exact absurd (Option.some_inj.1 hkept) (by decide)

end MemMapIPC
