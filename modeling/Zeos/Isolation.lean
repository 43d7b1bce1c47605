import Zeos.Frames
import Zeos.Machine.Ownership
import Zeos.Machine.Run
import Zeos.Paging

/-!
# Isolation of the users' pages

Two properties of runs of the paging functions, from initialization on.

* **Exclusive frames** (`allStates_exclusiveFrames_iff`).  No two user entries map
  one frame, and every frame mapped is a used frame of the machine, exactly as
  long as `set_user_pages` is called only while there are enough frames: it
  writes the result of `alloc_frame` into the table without a test, so that a
  failed allocation maps the page to frame `0xfffff`.
* **Kernel protection** (`kernelProtected_run`).  The kernel's pages stay mapped
  as they were set up, and no user entry maps a kernel frame.  This holds in every
  run, also when allocations fail.

Both are proved about `Paging` and carried over to memory by `Refines`.

`EnoughFrames` is a condition on the state before a call, in terms of the bytemap alone;
it is not assumed but shown to be what decides, in both directions.  For the kernel's
protection the truncation matters: the frame -1 becomes 0xfffff in the twenty bits of the
entry, which is no frame of the machine but no frame of the kernel either.  Both results
begin with `boot`, the functions of `init_mm` in their order on a memory that may hold
anything.
-/

namespace Zeos

open Machine PageTableEntry

/-! ## Exclusive frames -/

/-- The frame that an entry makes accessible to the user. -/
def userFrame (e : PageTableEntry) : Option ℕ :=
  if present e ∧ user e then some (pbaseAddr e).toNat else none

theorem userFrame_eq_some {e : PageTableEntry} {f : ℕ} :
    userFrame e = some f ↔ present e ∧ user e ∧ (pbaseAddr e).toNat = f := by
  unfold userFrame
  split
  · next h => simp [h.1, h.2]
  · next h =>
      constructor
      · intro hf
        simp at hf
      · rintro ⟨hp, hu, -⟩
        exact absurd ⟨hp, hu⟩ h

@[simp] theorem userFrame_zero : userFrame 0 = none := by decide

/-- A frame that may be mapped to a user: it is no kernel frame, it exists, and it
is marked as used. -/
def InUse (physMem : ℕ → Byte) (f : ℕ) : Prop :=
  numPagKernel ≤ f ∧ f ≤ totalPages - 1 ∧ physMem f = usedFrameMark

/-- A way of making user entries from frame numbers. -/
structure UserEntry (entry : DWord → PageTableEntry) : Prop where
  present : ∀ f, present (entry f) = true
  user : ∀ f, user (entry f) = true
  pbaseAddr : ∀ f, pbaseAddr (entry f) = f.setWidth 20

theorem userEntry_codeEntry : UserEntry codeEntry := by
  constructor <;> intro f <;> simp [codeEntry]

theorem userEntry_dataEntry : UserEntry dataEntry := by
  constructor <;> intro f <;> simp [dataEntry]

theorem UserEntry.userFrame {entry : DWord → PageTableEntry} (h : UserEntry entry)
    (f : DWord) : Zeos.userFrame (entry f) = some (f.setWidth 20).toNat :=
  userFrame_eq_some.mpr ⟨h.present f, h.user f, by rw [h.pbaseAddr]⟩

namespace Paging

/-- The frames that the slots make accessible to users. -/
def owned (p : Paging) : ℕ × ℕ → Option ℕ := userFrame ∘ p.table

/-- No frame is mapped twice, and what is mapped is in use. -/
def ExclusiveFrames (p : Paging) : Prop := Exclusive p.owned (InUse p.physMem)

/-- The entries of the data pages are clear or user entries. -/
def DataClean (p : Paging) : Prop :=
  ∀ t, ∀ pag < numPagData, p.table (t, pagLogInitData + pag) = 0 ∨
    ∃ f, userFrame (p.table (t, pagLogInitData + pag)) = some f

/-- Mapping a page while there is a frame for it. -/
theorem ExclusiveFrames.mapPage {p : Paging} (h : p.ExclusiveFrames)
    {entry : DWord → PageTableEntry} (hentry : UserEntry entry) (slot : ℕ × ℕ)
    (hfree : (freeFrames p.physMem).Nonempty) :
    (p.mapPage entry slot).ExclusiveFrames := by
  obtain ⟨k, hk, -, heq⟩ := allocFrame_of_nonempty hfree
  obtain ⟨hlt, hge, -, hmark⟩ := mem_freeFrames.mp hk
  have hframe : userFrame (entry (BitVec.ofInt 32 (k : ℤ))) = some k := by
    simp only [totalPages] at hlt
    rw [hentry.userFrame, BitVec.ofInt_natCast, BitVec.toNat_setWidth,
      BitVec.toNat_ofNat]
    congr 1
    omega
  have hnot : ¬ InUse p.physMem k := fun hin => by
    have hused := hin.2.2
    rw [hmark] at hused
    exact absurd hused (by decide)
  simp only [ExclusiveFrames, owned, Paging.mapPage, heq, Function.comp_update, hframe]
  refine h.assign slot hnot ⟨hge, by omega, Function.update_self _ _ _⟩ fun r hr => ?_
  by_cases hrk : r = k
  · exact absurd (hrk ▸ hr) hnot
  · exact ⟨hr.1, hr.2.1, by rw [Function.update_of_ne hrk]; exact hr.2.2⟩

/-- Mapping a page when there is none: the entry gets frame `0xfffff`, which does
not exist. -/
theorem not_exclusiveFrames_mapPage (p : Paging) {entry : DWord → PageTableEntry}
    (hentry : UserEntry entry) (slot : ℕ × ℕ) (hfree : freeFrames p.physMem = ∅) :
    ¬ (p.mapPage entry slot).ExclusiveFrames := by
  intro h
  have howned : (p.mapPage entry slot).owned slot = some 0xfffff := by
    simp only [owned, Paging.mapPage, allocFrame_of_empty hfree, Function.comp_apply,
      Function.update_self, hentry.userFrame]
    decide
  have hbound := (h.used howned).2.1
  simp only [totalPages] at hbound
  omega

/-- Giving a data page back. -/
theorem ExclusiveFrames.unmapPage {p : Paging} (h : p.ExclusiveFrames) {slot : ℕ × ℕ}
    (hclean : p.table slot = 0 ∨ ∃ f, userFrame (p.table slot) = some f) :
    (p.unmapPage slot).ExclusiveFrames := by
  simp only [ExclusiveFrames, owned, Paging.unmapPage, Function.comp_update,
    userFrame_zero]
  refine h.release slot fun r hr hown => ?_
  have hne : r ≠ ((pbaseAddr (p.table slot)).setWidth 32).toNat := by
    rw [BitVec.toNat_setWidth_of_le (by omega)]
    rcases hclean with hzero | ⟨f, hf⟩
    · intro heq
      rw [hzero] at heq
      exact absurd hr.1 (by rw [heq]; decide)
    · obtain ⟨-, -, hpbase⟩ := userFrame_eq_some.mp hf
      intro heq
      exact hown (by rw [owned, Function.comp_apply, hf, heq, hpbase])
  exact ⟨hr.1, hr.2.1, by rw [freeFrame_of_ne hne]; exact hr.2.2⟩

theorem DataClean.mapPage {p : Paging} (h : p.DataClean)
    {entry : DWord → PageTableEntry} (hentry : UserEntry entry) (slot : ℕ × ℕ) :
    (p.mapPage entry slot).DataClean := by
  intro t pag hpag
  by_cases heq : (t, pagLogInitData + pag) = slot
  · right
    rw [heq]
    simp only [Paging.mapPage, Function.update_self, hentry.userFrame]
    exact ⟨_, rfl⟩
  · simp only [Paging.mapPage, Function.update_of_ne heq]
    exact h t pag hpag

theorem DataClean.unmapPage {p : Paging} (h : p.DataClean) (slot : ℕ × ℕ) :
    (p.unmapPage slot).DataClean := by
  intro t pag hpag
  by_cases heq : (t, pagLogInitData + pag) = slot
  · left
    rw [heq]
    simp only [Paging.unmapPage, Function.update_self]
  · simp only [Paging.unmapPage, Function.update_of_ne heq]
    exact h t pag hpag

/-! ### The loops -/

/-- Map the slots of a list, each with its kind of entry. -/
def mapAll (p : Paging) (l : List ((ℕ × ℕ) × (DWord → PageTableEntry))) : Paging :=
  l.foldl (fun p slot => p.mapPage slot.2 slot.1) p

theorem mapAll_cons (p : Paging) (slot : (ℕ × ℕ) × (DWord → PageTableEntry))
    (l : List ((ℕ × ℕ) × (DWord → PageTableEntry))) :
    p.mapAll (slot :: l) = (p.mapPage slot.2 slot.1).mapAll l := rfl

theorem mapAll_concat (p : Paging) (slot : (ℕ × ℕ) × (DWord → PageTableEntry))
    (l : List ((ℕ × ℕ) × (DWord → PageTableEntry))) :
    p.mapAll (l ++ [slot]) = (p.mapAll l).mapPage slot.2 slot.1 := by
  rw [mapAll, List.foldl_append]
  rfl

theorem card_freeFrames_mapAll (l : List ((ℕ × ℕ) × (DWord → PageTableEntry)))
    (p : Paging) :
    (freeFrames (p.mapAll l).physMem).card = (freeFrames p.physMem).card - l.length := by
  induction l generalizing p with
  | nil => exact (Nat.sub_zero _).symm
  | cons slot l ih =>
      have hone : (freeFrames (p.mapPage slot.2 slot.1).physMem).card =
          (freeFrames p.physMem).card - 1 := card_freeFrames_allocFrame p.physMem
      rw [mapAll_cons, ih, hone, List.length_cons]
      omega

theorem DataClean.mapAll {l : List ((ℕ × ℕ) × (DWord → PageTableEntry))}
    (hl : ∀ slot ∈ l, UserEntry slot.2) {p : Paging} (h : p.DataClean) :
    (p.mapAll l).DataClean :=
  List.foldlRecOn l _ h fun _ hp slot hslot => hp.mapPage (hl slot hslot) slot.1

/-- With a frame for each page, all pages get frames of their own. -/
theorem ExclusiveFrames.mapAll {l : List ((ℕ × ℕ) × (DWord → PageTableEntry))}
    (hl : ∀ slot ∈ l, UserEntry slot.2) {p : Paging} (h : p.ExclusiveFrames)
    (hcard : l.length ≤ (freeFrames p.physMem).card) : (p.mapAll l).ExclusiveFrames := by
  induction l generalizing p with
  | nil => exact h
  | cons slot l ih =>
      rw [List.length_cons] at hcard
      have hfree : (freeFrames p.physMem).Nonempty := Finset.card_pos.mp (by omega)
      have hone : (freeFrames (p.mapPage slot.2 slot.1).physMem).card =
          (freeFrames p.physMem).card - 1 := card_freeFrames_allocFrame p.physMem
      rw [mapAll_cons]
      exact ih (fun s hs => hl s (List.mem_cons_of_mem slot hs))
        (h.mapPage (hl slot List.mem_cons_self) slot.1 hfree) (by omega)

/-- With too few frames, the last page is left with the frame that does not
exist. -/
theorem not_exclusiveFrames_mapAll {l : List ((ℕ × ℕ) × (DWord → PageTableEntry))}
    (hl : ∀ slot ∈ l, UserEntry slot.2) {p : Paging}
    (hcard : (freeFrames p.physMem).card < l.length) :
    ¬ (p.mapAll l).ExclusiveFrames := by
  rcases l.eq_nil_or_concat' with rfl | ⟨l, slot, rfl⟩
  · simp at hcard
  · rw [List.length_append, List.length_singleton] at hcard
    have hempty : freeFrames (p.mapAll l).physMem = ∅ := by
      rw [← Finset.card_eq_zero, card_freeFrames_mapAll]
      omega
    rw [mapAll_concat]
    exact not_exclusiveFrames_mapPage (p.mapAll l) (hl slot (by simp)) slot.1 hempty

theorem userSlots_userEntry (t : ℕ) : ∀ slot ∈ userSlots t, UserEntry slot.2 := by
  intro slot hslot
  rcases List.mem_append.mp hslot with h | h
  · obtain ⟨pag, -, rfl⟩ := List.mem_map.mp h
    exact userEntry_codeEntry
  · obtain ⟨pag, -, rfl⟩ := List.mem_map.mp h
    exact userEntry_dataEntry

theorem userSlots_length (t : ℕ) : (userSlots t).length = numPagCode + numPagData := by
  simp [userSlots]

/-- `set_user_pages` keeps frames exclusive exactly if there are enough of them. -/
theorem ExclusiveFrames.setUserPages_iff {p : Paging} (h : p.ExclusiveFrames) (t : ℕ) :
    (p.setUserPages t).ExclusiveFrames ↔
      numPagCode + numPagData ≤ (freeFrames p.physMem).card := by
  rw [← userSlots_length t]
  constructor
  · intro hafter
    by_contra hlt
    exact not_exclusiveFrames_mapAll (userSlots_userEntry t) (by omega) hafter
  · exact h.mapAll (userSlots_userEntry t)

/-- `free_user_pages` keeps frames exclusive. -/
theorem ExclusiveFrames.freeUserPages {p : Paging} (h : p.ExclusiveFrames)
    (hclean : p.DataClean) (t : ℕ) : (p.freeUserPages t).ExclusiveFrames := by
  refine (List.foldlRecOn (motive := fun p : Paging => p.ExclusiveFrames ∧ p.DataClean) _ _
    ⟨h, hclean⟩ fun p hp pag hpag => ?_).1
  exact ⟨hp.1.unmapPage (hp.2 t pag (List.mem_range.mp hpag)), hp.2.unmapPage _⟩

theorem DataClean.freeUserPages {p : Paging} (h : p.DataClean) (t : ℕ) :
    (p.freeUserPages t).DataClean :=
  List.foldlRecOn _ _ h fun _ hp _ _ => hp.unmapPage _

/-! ### Initially -/

theorem userFrame_kernelEntry (i : ℕ) : userFrame (kernelEntry i) = none := by
  have huser : user (kernelEntry i) = false := by
    simp only [kernelEntry, user_setPresent, user_setRw, user_setPbaseAddr]
    decide
  simp [userFrame, huser]

/-- Initially the user has nothing. -/
theorem owned_initial (physMem : ℕ → Byte) (slot : ℕ × ℕ) :
    (initial physMem).owned slot = none := by
  simp only [owned, Function.comp_apply, initial]
  split
  · exact userFrame_kernelEntry _
  · exact userFrame_zero

theorem exclusiveFrames_initial (physMem : ℕ → Byte) : (initial physMem).ExclusiveFrames :=
  Exclusive.of_none (owned_initial physMem)

theorem dataClean_initial (physMem : ℕ → Byte) : (initial physMem).DataClean := by
  intro t pag _
  left
  simp only [initial]
  rw [if_neg]
  simp only [pagLogInitData, lUserStart, numPagKernel]
  omega

end Paging

/-! ### Runs -/

/-- The operations on the user's pages of a task. -/
inductive UserOp
  | setUserPages (t : Fin nrTasks)
  | freeUserPages (t : Fin nrTasks)

/-- One operation on the user's pages. -/
def userStep (L : Layout) (s : Mm) : UserOp → Mm
  | .setUserPages t => setUserPages s (L.taskAddr t)
  | .freeUserPages t => freeUserPages s (L.taskAddr t)

/-- The same operation on tables. -/
def Paging.userStep (p : Paging) : UserOp → Paging
  | .setUserPages t => p.setUserPages t
  | .freeUserPages t => p.freeUserPages t

theorem refines_userStep {L : Layout} {s : Mm} {p : Paging} (h : Refines L s p)
    (op : UserOp) : Refines L (userStep L s op) (p.userStep op) := by
  cases op with
  | setUserPages t => exact refines_setUserPages h t.isLt
  | freeUserPages t => exact refines_freeUserPages h t.isLt

theorem Paging.DataClean.userStep {p : Paging} (h : p.DataClean) (op : UserOp) :
    (p.userStep op).DataClean := by
  cases op with
  | setUserPages t => exact h.mapAll (userSlots_userEntry t)
  | freeUserPages t => exact h.freeUserPages t

/-- There are enough frames for the operation. -/
def EnoughFrames (s : Mm) : UserOp → Prop
  | .setUserPages _ => numPagCode + numPagData ≤ (freeFrames s.physMem).card
  | .freeUserPages _ => True

/-- The entry of a logical page of a task, found through the task's directory. -/
def Mm.entry (L : Layout) (s : Mm) (t k : ℕ) : PageTableEntry :=
  s.mem.load (entryAddr (getPT s (L.taskAddr t)) k)

theorem Refines.entry {L : Layout} {s : Mm} {p : Paging} (h : Refines L s p) {t k : ℕ}
    (ht : t < nrTasks) (hk : k < totalPages) : s.entry L t k = p.table (t, k) := by
  rw [Mm.entry, h.linked.table t ht, h.load ht hk]

/-- Different user entries map different frames, and each of these frames is a
frame of the machine outside of the kernel that is marked as used. -/
structure Mm.ExclusiveFrames (L : Layout) (s : Mm) : Prop where
  distinct : ∀ t < nrTasks, ∀ k < totalPages, ∀ t' < nrTasks, ∀ k' < totalPages,
    present (s.entry L t k) → user (s.entry L t k) →
    present (s.entry L t' k') → user (s.entry L t' k') →
    (t, k) ≠ (t', k') → pbaseAddr (s.entry L t k) ≠ pbaseAddr (s.entry L t' k')
  used : ∀ t < nrTasks, ∀ k < totalPages,
    present (s.entry L t k) → user (s.entry L t k) →
    numPagKernel ≤ (pbaseAddr (s.entry L t k)).toNat ∧
      (pbaseAddr (s.entry L t k)).toNat ≤ totalPages - 1 ∧
      s.physMem (pbaseAddr (s.entry L t k)).toNat = usedFrameMark

/-- Only slots of tables own frames. -/
theorem Refines.slot_of_owned {L : Layout} {s : Mm} {p : Paging} (h : Refines L s p)
    {slot : ℕ × ℕ} {f : ℕ} (hf : p.owned slot = some f) :
    slot.1 < nrTasks ∧ slot.2 < totalPages := by
  by_contra hout
  have hzero : p.table slot = 0 := by
    rw [← h.paging]
    exact if_neg hout
  rw [Paging.owned, Function.comp_apply, hzero, userFrame_zero] at hf
  exact absurd hf (by simp)

theorem Refines.exclusiveFrames_iff {L : Layout} {s : Mm} {p : Paging}
    (h : Refines L s p) : s.ExclusiveFrames L ↔ p.ExclusiveFrames := by
  constructor
  · intro hs
    constructor
    · rintro ⟨t, k⟩ ⟨t', k'⟩ f hf hf'
      obtain ⟨ht, hk⟩ := h.slot_of_owned hf
      obtain ⟨ht', hk'⟩ := h.slot_of_owned hf'
      by_contra hne
      rw [Paging.owned, Function.comp_apply, ← h.entry ht hk] at hf
      rw [Paging.owned, Function.comp_apply, ← h.entry ht' hk'] at hf'
      obtain ⟨hp, hu, hpbase⟩ := userFrame_eq_some.mp hf
      obtain ⟨hp', hu', hpbase'⟩ := userFrame_eq_some.mp hf'
      exact hs.distinct t ht k hk t' ht' k' hk' hp hu hp' hu' hne
        (BitVec.eq_of_toNat_eq (hpbase.trans hpbase'.symm))
    · rintro ⟨t, k⟩ f hf
      obtain ⟨ht, hk⟩ := h.slot_of_owned hf
      rw [Paging.owned, Function.comp_apply, ← h.entry ht hk] at hf
      obtain ⟨hp, hu, rfl⟩ := userFrame_eq_some.mp hf
      have hused := hs.used t ht k hk hp hu
      rwa [h.physMem] at hused
  · intro hp
    -- in the other direction every user entry is an owner
    have hown : ∀ {t k}, t < nrTasks → k < totalPages → present (s.entry L t k) →
        user (s.entry L t k) →
        p.owned (t, k) = some (pbaseAddr (s.entry L t k)).toNat := by
      intro t k ht hk hpres huser
      rw [Paging.owned, Function.comp_apply, ← h.entry ht hk]
      exact userFrame_eq_some.mpr ⟨hpres, huser, rfl⟩
    constructor
    · intro t ht k hk t' ht' k' hk' hpres huser hpres' huser' hne heq
      have hslot := hown ht hk hpres huser
      rw [heq] at hslot
      exact hne (hp.inj hslot (hown ht' hk' hpres' huser'))
    · intro t ht k hk hpres huser
      have hused := hp.used (hown ht hk hpres huser)
      rwa [InUse, ← h.physMem] at hused

/-- What holds of every state that the operations can reach: memory holds tables
whose data pages are clear or user pages. -/
def Mm.Tidy (L : Layout) (s : Mm) : Prop := ∃ p, Refines L s p ∧ p.DataClean

theorem tidy_boot (L : Layout) (s : Mm) : (boot L s).Tidy L :=
  ⟨_, refines_boot L s, Paging.dataClean_initial _⟩

theorem Mm.Tidy.userStep {L : Layout} {s : Mm} (h : s.Tidy L) (op : UserOp) :
    (userStep L s op).Tidy L := by
  obtain ⟨p, hp, hclean⟩ := h
  exact ⟨_, refines_userStep hp op, hclean.userStep op⟩

/-- An operation keeps frames exclusive exactly if there are enough of them. -/
theorem exclusiveFrames_userStep_iff {L : Layout} {s : Mm} (h : s.Tidy L)
    (hs : s.ExclusiveFrames L) (op : UserOp) :
    (userStep L s op).ExclusiveFrames L ↔ EnoughFrames s op := by
  obtain ⟨p, hp, hclean⟩ := h
  have hexcl := hp.exclusiveFrames_iff.mp hs
  rw [(refines_userStep hp op).exclusiveFrames_iff]
  cases op with
  | setUserPages t =>
      rw [EnoughFrames, hp.physMem]
      exact hexcl.setUserPages_iff t
  | freeUserPages t => exact iff_of_true (hexcl.freeUserPages hclean t) trivial

theorem exclusiveFrames_boot (L : Layout) (s : Mm) : (boot L s).ExclusiveFrames L :=
  (refines_boot L s).exclusiveFrames_iff.mpr (Paging.exclusiveFrames_initial _)

/-- What an operation decides, a run decides. -/
theorem exclusiveFrames_run_iff {L : Layout} {s : Mm} (h : s.Tidy L)
    (hs : s.ExclusiveFrames L) (ops : List UserOp) :
    AllStates (userStep L) (Mm.ExclusiveFrames L) s ops ↔
      AllSteps (userStep L) EnoughFrames s ops :=
  allStates_iff_allSteps (userStep L) (J := Mm.Tidy L)
    (fun _ op h => h.userStep op)
    (fun _ op h hs => exclusiveFrames_userStep_iff h hs op) h hs

/-- **Frames stay exclusive through a run exactly if each `set_user_pages` of the
run finds enough frames.** -/
theorem allStates_exclusiveFrames_iff (L : Layout) (s : Mm) (ops : List UserOp) :
    AllStates (userStep L) (Mm.ExclusiveFrames L) (boot L s) ops ↔
      AllSteps (userStep L) EnoughFrames (boot L s) ops :=
  exclusiveFrames_run_iff (tidy_boot L s) (exclusiveFrames_boot L s) ops

/-- `set_user_pages` takes a frame for each page, also from a task that has its
pages already. -/
theorem card_freeFrames_setUserPages {L : Layout} {s : Mm} (h : s.Tidy L)
    (t : Fin nrTasks) :
    (freeFrames (userStep L s (.setUserPages t)).physMem).card =
      (freeFrames s.physMem).card - (numPagCode + numPagData) := by
  obtain ⟨p, hp, -⟩ := h
  rw [(refines_userStep hp (.setUserPages t)).physMem, hp.physMem, ← Paging.userSlots_length t]
  exact Paging.card_freeFrames_mapAll (Paging.userSlots t) p

/-- Calls of `set_user_pages` without an end run out of frames. -/
theorem not_enoughFrames_replicate {L : Layout} (t : Fin nrTasks) (n : ℕ) {s : Mm}
    (h : s.Tidy L) (hcard : (freeFrames s.physMem).card < n * (numPagCode + numPagData)) :
    ¬ AllSteps (userStep L) EnoughFrames s (List.replicate n (.setUserPages t)) := by
  induction n generalizing s with
  | zero => simp at hcard
  | succ n ih =>
      rw [List.replicate_succ, AllSteps]
      rintro ⟨henough, hrest⟩
      refine ih (h.userStep _) ?_ hrest
      rw [card_freeFrames_setUserPages h t]
      simp only [EnoughFrames, numPagCode, numPagData] at henough hcard ⊢
      omega

/-- A place for the tasks and the tables. -/
def exampleLayout : Layout where
  task := 0x20000#32
  dirPages := 0x2a000#32
  pagusrTable := 0x34000#32
  task_aligned := by decide
  dirPages_aligned := by decide
  pagusrTable_aligned := by decide
  task_fits := by decide
  dirPages_fits := by decide
  pagusrTable_fits := by decide
  task_dirPages := by decide
  task_pagusrTable := by decide
  dirPages_pagusrTable := by decide

/-- After thirteen calls of `set_user_pages` for one task, 20 of the 384 frames
are left, and the fourteenth call maps pages to frame `0xfffff`. -/
theorem not_allStates_exclusiveFrames_fourteen :
    ¬ AllStates (userStep exampleLayout) (Mm.ExclusiveFrames exampleLayout)
        (boot exampleLayout ⟨fun _ => 0, fun _ => 0⟩)
        (List.replicate 14 (.setUserPages ⟨0, by decide⟩)) := by
  intro hall
  have hcard : (freeFrames (boot exampleLayout ⟨fun _ => 0, fun _ => 0⟩).physMem).card <
      14 * (numPagCode + numPagData) := by
    rw [(refines_boot exampleLayout _).physMem, Paging.initial_physMem,
      card_freeFrames_initFrames]
    decide
  exact not_enoughFrames_replicate _ 14 (tidy_boot _ _) hcard
    ((exclusiveFrames_run_iff (tidy_boot _ _) (exclusiveFrames_boot _ _) _).mp hall)

/-! ## Kernel protection -/

namespace Paging

/-- The kernel's pages are mapped as they were set up, and user entries map no
kernel frame. -/
structure KernelProtected (p : Paging) : Prop where
  kernel : ∀ t < nrTasks, ∀ i < numPagKernel, p.table (t, i) = initialEntry i
  user : ∀ slot, user (p.table slot) = true →
    numPagKernel ≤ (pbaseAddr (p.table slot)).toNat
  frames : KernelFramesUsed p.physMem

/-- Changing a slot behind the kernel's pages. -/
theorem KernelProtected.update {p : Paging} (h : p.KernelProtected) {slot : ℕ × ℕ}
    (hslot : numPagKernel ≤ slot.2) {e : PageTableEntry}
    (he : PageTableEntry.user e = true → numPagKernel ≤ (pbaseAddr e).toNat)
    {physMem : ℕ → Byte} (hframes : KernelFramesUsed physMem) :
    KernelProtected { physMem := physMem, table := Function.update p.table slot e } := by
  refine ⟨fun t ht i hi => ?_, fun slot' huser => ?_, hframes⟩
  · have hne : (t, i) ≠ slot := fun heq => by
      rw [← heq] at hslot
      exact absurd hi (by simpa using hslot)
    exact (Function.update_of_ne hne e p.table).trans (h.kernel t ht i hi)
  · dsimp only at huser ⊢
    by_cases heq : slot' = slot
    · subst heq
      rw [Function.update_self] at huser ⊢
      exact he huser
    · rw [Function.update_of_ne heq] at huser ⊢
      exact h.user slot' huser

theorem KernelProtected.mapPage {p : Paging} (h : p.KernelProtected)
    {entry : DWord → PageTableEntry} (hentry : UserEntry entry) {slot : ℕ × ℕ}
    (hslot : numPagKernel ≤ slot.2) : (p.mapPage entry slot).KernelProtected := by
  refine h.update hslot (fun _ => ?_) h.frames.allocFrame
  rw [hentry.pbaseAddr]
  exact allocFrame_frame_ge p.physMem

theorem KernelProtected.unmapPage {p : Paging} (h : p.KernelProtected) {slot : ℕ × ℕ}
    (hslot : numPagKernel ≤ slot.2) : (p.unmapPage slot).KernelProtected :=
  h.update hslot (fun huser => absurd huser (by decide)) (h.frames.freeFrame _)

theorem KernelProtected.setEntry {p : Paging} (h : p.KernelProtected) {slot : ℕ × ℕ}
    (hslot : numPagKernel ≤ slot.2) {e : PageTableEntry}
    (he : PageTableEntry.user e = true → numPagKernel ≤ (pbaseAddr e).toNat) :
    (p.setEntry slot e).KernelProtected :=
  h.update hslot he h.frames

/-- The user's pages lie behind the kernel's. -/
theorem userSlots_ge (t : ℕ) : ∀ slot ∈ userSlots t, numPagKernel ≤ slot.1.2 := by
  intro slot hslot
  rcases List.mem_append.mp hslot with h | h
  · obtain ⟨pag, -, rfl⟩ := List.mem_map.mp h
    exact Nat.le_add_right_of_le (by decide)
  · obtain ⟨pag, -, rfl⟩ := List.mem_map.mp h
    exact Nat.le_add_right_of_le (by decide)

theorem KernelProtected.setUserPages {p : Paging} (h : p.KernelProtected) (t : ℕ) :
    (p.setUserPages t).KernelProtected :=
  List.foldlRecOn _ _ h fun _ hp slot hslot =>
    hp.mapPage (userSlots_userEntry t slot hslot) (userSlots_ge t slot hslot)

theorem KernelProtected.freeUserPages {p : Paging} (h : p.KernelProtected) (t : ℕ) :
    (p.freeUserPages t).KernelProtected :=
  List.foldlRecOn _ _ h fun _ hp _ _ => hp.unmapPage (Nat.le_add_right_of_le (by decide))

theorem kernelProtected_initial (physMem : ℕ → Byte) :
    (initial physMem).KernelProtected := by
  refine ⟨fun t ht i hi => ?_, fun slot huser => ?_, ?_⟩
  · exact if_congr (and_iff_right ht) rfl rfl
  · simp only [initial] at huser
    split at huser
    · simp only [kernelEntry, user_setPresent, user_setRw, user_setPbaseAddr] at huser
      exact absurd huser (by decide)
    · exact absurd huser (by decide)
  · rw [initial_physMem]
    exact kernelFramesUsed_initFrames physMem

end Paging

/-- A logical page behind the kernel's. -/
structure UserPage where
  page : DWord
  ge : numPagKernel ≤ page.toNat
  lt : page.toNat < totalPages

/-- The number of a frame behind the kernel's. -/
structure UserFrame where
  frame : DWord
  ge : numPagKernel ≤ frame.toNat
  lt : frame.toNat < 2 ^ 20

/-- The operations on page tables. -/
inductive PageOp
  | user (op : UserOp)
  | setSsPag (t : Fin nrTasks) (page : UserPage) (frame : UserFrame)
  | delSsPag (t : Fin nrTasks) (page : UserPage)

/-- One operation on page tables. -/
def pageStep (L : Layout) (s : Mm) : PageOp → Mm
  | .user op => userStep L s op
  | .setSsPag t page frame => setSsPag s (getPT s (L.taskAddr t)) page.page frame.frame
  | .delSsPag t page => delSsPag s (getPT s (L.taskAddr t)) page.page

/-- The same operation on tables. -/
def Paging.pageStep (p : Paging) : PageOp → Paging
  | .user op => p.userStep op
  | .setSsPag t page frame => p.setEntry (t, page.page.toNat) (dataEntry frame.frame)
  | .delSsPag t page => p.setEntry (t, page.page.toNat) 0

theorem refines_pageStep {L : Layout} {s : Mm} {p : Paging} (h : Refines L s p)
    (op : PageOp) : Refines L (pageStep L s op) (p.pageStep op) := by
  cases op with
  | user op => exact refines_userStep h op
  | setSsPag t page frame => exact refines_setSsPag h t.isLt page.lt frame.frame
  | delSsPag t page => exact refines_delSsPag h t.isLt page.lt

theorem Paging.KernelProtected.pageStep {p : Paging} (h : p.KernelProtected)
    (op : PageOp) : (p.pageStep op).KernelProtected := by
  cases op with
  | user op =>
      cases op with
      | setUserPages t => exact h.setUserPages t
      | freeUserPages t => exact h.freeUserPages t
  | setSsPag t page frame =>
      refine h.setEntry page.ge fun _ => ?_
      rw [userEntry_dataEntry.pbaseAddr, BitVec.toNat_setWidth,
        Nat.mod_eq_of_lt frame.lt]
      exact frame.ge
  | delSsPag t page => exact h.setEntry page.ge fun huser => absurd huser (by decide)

/-- Every task's table keeps page 0 inaccessible and the other kernel pages mapped
to the frames of the same numbers for the kernel alone, no user entry maps a
kernel frame, and the kernel's frames are not free. -/
structure Mm.KernelProtected (L : Layout) (s : Mm) : Prop where
  null : ∀ t < nrTasks, present (s.entry L t 0) = false
  kernel : ∀ t < nrTasks, ∀ i, 1 ≤ i → i < numPagKernel →
    (pbaseAddr (s.entry L t i)).toNat = i ∧ present (s.entry L t i) = true ∧
      rw (s.entry L t i) = true ∧ user (s.entry L t i) = false
  user : ∀ t < nrTasks, ∀ k < totalPages, user (s.entry L t k) = true →
    numPagKernel ≤ (pbaseAddr (s.entry L t k)).toNat
  frames : KernelFramesUsed s.physMem

/-- The fields of a kernel entry. -/
theorem kernelEntry_fields {i : ℕ} (hi : i < numPagKernel) :
    (pbaseAddr (kernelEntry i)).toNat = i ∧ present (kernelEntry i) = true ∧
      rw (kernelEntry i) = true ∧ user (kernelEntry i) = false := by
  refine ⟨?_, ?_, ?_, ?_⟩
  · simp only [kernelEntry, pbaseAddr_setPresent, pbaseAddr_setRw, pbaseAddr_setPbaseAddr,
      BitVec.toNat_setWidth, BitVec.toNat_ofNat]
    simp only [numPagKernel] at hi
    omega
  · simp [kernelEntry]
  · simp [kernelEntry]
  · simp only [kernelEntry, user_setPresent, user_setRw, user_setPbaseAddr]
    decide

theorem Refines.kernelProtected {L : Layout} {s : Mm} {p : Paging} (h : Refines L s p)
    (hp : p.KernelProtected) : s.KernelProtected L := by
  have hlt : ∀ {i}, i < numPagKernel → i < totalPages :=
    fun hi => lt_of_lt_of_le hi (by decide)
  constructor
  · intro t ht
    rw [h.entry ht (by decide), hp.kernel t ht 0 (by decide)]
    decide
  · intro t ht i hpos hi
    rw [h.entry ht (hlt hi), hp.kernel t ht i hi, initialEntry, if_pos ⟨hpos, hi⟩]
    exact kernelEntry_fields hi
  · intro t ht k hk huser
    rw [h.entry ht hk] at huser ⊢
    exact hp.user (t, k) huser
  · rw [h.physMem]
    exact hp.frames

/-- What an allocation hands out is a frame outside of the kernel. -/
theorem allocFrame_result (physMem : ℕ → Byte) :
    (allocFrame physMem).1 = -1 ∨
      (numPagKernel : ℤ) ≤ (allocFrame physMem).1 ∧
        (allocFrame physMem).1 < (totalPages : ℤ) := by
  rcases (freeFrames physMem).eq_empty_or_nonempty with hempty | hne
  · left
    rw [allocFrame_of_empty hempty]
  · right
    obtain ⟨k, hk, -, heq⟩ := allocFrame_of_nonempty hne
    obtain ⟨hlt, hge, -, -⟩ := mem_freeFrames.mp hk
    rw [heq]
    exact ⟨Int.ofNat_le.mpr hge, Int.ofNat_lt.mpr hlt⟩

/-- **The kernel stays protected in every run of the page operations**, and no
allocation in such a run hands out a kernel frame. -/
theorem kernelProtected_run (L : Layout) (s : Mm) (ops : List PageOp) :
    AllStates (pageStep L) (Mm.KernelProtected L) (boot L s) ops ∧
      ∀ physMem, (allocFrame physMem).1 = -1 ∨
        (numPagKernel : ℤ) ≤ (allocFrame physMem).1 ∧
          (allocFrame physMem).1 < (totalPages : ℤ) := by
  refine ⟨?_, allocFrame_result⟩
  rw [allStates_iff_forall_foldl]
  intro bs _
  have hinv : ∃ p, Refines L (bs.foldl (pageStep L) (boot L s)) p ∧ p.KernelProtected :=
    List.foldlRecOn (motive := fun s => ∃ p, Refines L s p ∧ p.KernelProtected) bs _
      ⟨_, refines_boot L s, Paging.kernelProtected_initial _⟩
      fun _ ⟨p, hp, hprot⟩ op _ => ⟨_, refines_pageStep hp op, hprot.pageStep op⟩
  obtain ⟨p, hp, hprot⟩ := hinv
  exact hp.kernelProtected hprot

end Zeos
