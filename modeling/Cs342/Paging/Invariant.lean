import Mathlib
import Cs342.Paging.Simulation

/-!
# The tables stay consistent

The frames in use are an initial segment of the frame table, and each of them belongs to exactly one
valid page; no two valid pages were loaded or last used at the same time. This is broken inside a
step, between the invalidation of a victim and the reuse of its frame, and `PageStep` is the step
from the outside: a hit, a load into the first unused frame, or a load into the frame of a victim
that has the smallest time of all (`access_spec`). `PageStep.inv` is then one case per kind of step.
-/

namespace Cs342.Paging

/-- The page is valid. -/
def Resident (outerTable : OuterTable) (page : PageIndex) : Prop :=
  InTable page ∧ (outerTable page).valid = true

/-- The frame table with the first frames in use. -/
def framesInUse (used : Nat) : List MemoryFrame :=
  List.replicate used { taken := true } ++ List.replicate (maxFrameCount - used) { taken := false }

/-- The invariant of the two tables, with the number of frames in use and the time of the last
reference. -/
structure MemoryInv (m used t : Nat) (memory : Memory) : Prop where
  used_le : used ≤ m
  frames_eq : memory.frames = framesInUse used
  frame_used : ∀ p, Resident memory.outerTable p →
    ∃ f < used, (memory.outerTable p).frame = (f : Int)
  frame_inj : ∀ p q, Resident memory.outerTable p → Resident memory.outerTable q →
    (memory.outerTable p).frame = (memory.outerTable q).frame → p = q
  frame_held : ∀ f < used, ∃ p, Resident memory.outerTable p ∧
    (memory.outerTable p).frame = (f : Int)
  pageIn_inj : ∀ p q, Resident memory.outerTable p → Resident memory.outerTable q →
    (memory.outerTable p).pageInTime = (memory.outerTable q).pageInTime → p = q
  lastUsed_inj : ∀ p q, Resident memory.outerTable p → Resident memory.outerTable q →
    (memory.outerTable p).lastUsedTime = (memory.outerTable q).lastUsedTime → p = q
  times : ∀ p, Resident memory.outerTable p →
    (memory.outerTable p).pageInTime ≤ (memory.outerTable p).lastUsedTime ∧
      (memory.outerTable p).lastUsedTime ≤ t

/-- The tables after a reference to a valid page. -/
def touchPage (t : Nat) (page : PageIndex) (memory : Memory) : Memory :=
  { memory with
    outerTable := Function.update memory.outerTable page
      { memory.outerTable page with lastUsedTime := t } }

/-- A page that has just been loaded. -/
def loadedPage (frame t : Nat) : Page where
  frame := frame
  valid := true
  pageInTime := t
  lastUsedTime := t

/-- The tables after a load into the first unused frame. -/
def fillFrame (used t : Nat) (page : PageIndex) (memory : Memory) : Memory where
  frames := framesInUse (used + 1)
  outerTable := Function.update memory.outerTable page (loadedPage used t)

/-- The tables after a load into the frame of a victim. -/
def replacePage (victim : PageIndex) (frame t : Nat) (page : PageIndex) (memory : Memory) :
    Memory :=
  { memory with
    outerTable := Function.update (Function.update memory.outerTable victim
      { memory.outerTable victim with valid := false }) page (loadedPage frame t) }

/-- What a reference to a page at time `t` does, with the victim chosen by `time`: the tables
before and after with their numbers of frames in use, whether it was a fault, and the frame. -/
inductive PageStep (m : Nat) (time : Page → Int) (t : Nat) (page : PageIndex) :
    Nat → Memory → Nat → Memory → Bool → Nat → Prop
  | hit {used : Nat} {memory : Memory} {frame : Nat} :
      Resident memory.outerTable page → (memory.outerTable page).frame = (frame : Int) →
      PageStep m time t page used memory used (touchPage t page memory) false frame
  | fill {used : Nat} {memory : Memory} :
      ¬ Resident memory.outerTable page → used < m →
      PageStep m time t page used memory (used + 1) (fillFrame used t page memory) true used
  | evict {memory : Memory} {victim : PageIndex} {frame : Nat} :
      ¬ Resident memory.outerTable page → Resident memory.outerTable victim →
      (∀ q, Resident memory.outerTable q →
        time (memory.outerTable victim) ≤ time (memory.outerTable q)) →
      (memory.outerTable victim).frame = (frame : Int) → frame < m →
      PageStep m time t page m memory m (replacePage victim frame t page memory) true frame

/-! ## The searches -/

section Searches

variable {m used t : Nat} {memory : Memory}

theorem mem_pageIndices {page : PageIndex} : page ∈ pageIndices ↔ InTable page := by
  obtain ⟨i, j⟩ := page
  unfold pageIndices InTable
  simp only [List.mem_flatMap, List.mem_map, List.mem_range, Prod.mk.injEq]
  constructor
  · rintro ⟨_, hi, _, hj, rfl, rfl⟩
    exact ⟨hi, hj⟩
  · rintro ⟨hi, hj⟩
    exact ⟨i, hi, j, hj, rfl, rfl⟩

theorem firstFreeFrom_segment {a b : Nat} {i n : Int} (hlo : i + a ≤ n) (hhi : n ≤ i + a + b) :
    firstFreeFrom n i (List.replicate a { taken := true } ++ List.replicate b { taken := false })
      = .ok (if i + a < n then i + a else -1) := by
  induction a generalizing i with
  | zero =>
      cases b with
      | zero =>
          -- no frame is left, and the search has come to its end
          have : i = n := by simp at hlo hhi; omega
          simp [firstFreeFrom, this]
      | succ b =>
          simp only [List.replicate_zero, List.nil_append, List.replicate_succ, firstFreeFrom]
          by_cases hi : i = n
          · simp [hi]
          · rw [if_pos hi, if_pos (by simp)]
            have : i + (0 : Nat) < n := by push_cast at hlo ⊢; omega
            rw [if_pos this]
            simp
  | succ a ih =>
      have hne : i ≠ n := by push_cast at hlo; omega
      simp only [List.replicate_succ, List.cons_append, firstFreeFrom, if_pos hne, Bool.not_true,
        Bool.false_eq_true, if_false]
      rw [ih (by push_cast at hlo; omega) (by push_cast at hhi; omega)]
      have : i + 1 + (a : Int) = i + (a + 1 : Nat) := by push_cast; ring
      rw [this]

/-- The search finds the first unused frame, if there is one. -/
theorem findFirstFreeFrame_eq (hinv : MemoryInv m used t memory) {paramStore : ParamStore}
    (hm : paramStore.numOfFrames = m) (hmax : m ≤ maxFrameCount) :
    findFirstFreeFrame paramStore memory.frames = .ok (if used < m then (used : Int) else -1) := by
  have hle := hinv.used_le
  rw [findFirstFreeFrame, hinv.frames_eq, framesInUse, hm,
    firstFreeFrom_segment (by omega) (by omega)]
  simp

/-- With a valid page below the limit, the nested loops find one with the smallest time. -/
theorem getOldestPage_eq {indices : List PageIndex} (hindices : ∀ q, q ∈ indices ↔ InTable q)
    {time : Page → Int} {outerTable : OuterTable}
    (h : ∃ q, Resident outerTable q ∧ time (outerTable q) < timeLimit) :
    ∃ victim, getOldestPage indices time outerTable = some victim ∧ Resident outerTable victim ∧
      ∀ q, Resident outerTable q → time (outerTable victim) ≤ time (outerTable q) := by
  obtain ⟨q, hq, hlt⟩ := h
  have hlive : ∃ q ∈ indices, (outerTable q).valid = true ∧ time (outerTable q) < timeLimit :=
    ⟨q, (hindices q).mpr hq.1, hq.2, hlt⟩
  obtain ⟨victim, hmem, hsome, hvalid, hmin⟩ := Argmin.scan_eq_some hlive
  exact ⟨victim, hsome, ⟨(hindices victim).mp hmem, hvalid⟩,
    fun q hq => hmin q ((hindices q).mpr hq.1) hq.2⟩

theorem getFifoPage_eq {outerTable : OuterTable}
    (h : ∃ q, Resident outerTable q ∧ (outerTable q).pageInTime < timeLimit) :
    ∃ victim, getFifoPage outerTable = some victim ∧ Resident outerTable victim ∧
      ∀ q, Resident outerTable q →
        (outerTable victim).pageInTime ≤ (outerTable q).pageInTime :=
  getOldestPage_eq (fun _ => mem_pageIndices) h

theorem getLruPage_eq {outerTable : OuterTable}
    (h : ∃ q, Resident outerTable q ∧ (outerTable q).lastUsedTime < timeLimit) :
    ∃ victim, getLruPage outerTable = some victim ∧ Resident outerTable victim ∧
      ∀ q, Resident outerTable q →
        (outerTable victim).lastUsedTime ≤ (outerTable q).lastUsedTime :=
  getOldestPage_eq (fun _ => mem_pageIndices) h

/-- The time by which an algorithm chooses its victim. -/
def victimTime : ReplacementAlgorithm → Page → Int
  | .fifo => Page.pageInTime
  | _ => Page.lastUsedTime

/-- Some valid page has a time below the limit of the search. -/
def BelowLimit (time : Page → Int) (outerTable : OuterTable) : Prop :=
  ∃ q, Resident outerTable q ∧ time (outerTable q) < timeLimit

/-- What the nested loops find is a valid page below the limit. -/
theorem belowLimit_of_getOldestPage {indices : List PageIndex}
    (hindices : ∀ q, q ∈ indices ↔ InTable q) {time : Page → Int} {outerTable : OuterTable}
    {victim : PageIndex} (h : getOldestPage indices time outerTable = some victim) :
    BelowLimit time outerTable := by
  obtain ⟨hmem, hvalid, hlt⟩ := Argmin.of_scan_eq_some h
  exact ⟨victim, ⟨(hindices victim).mp hmem, hvalid⟩, hlt⟩

theorem belowLimit_of_getFifoPage {outerTable : OuterTable} {victim : PageIndex}
    (h : getFifoPage outerTable = some victim) : BelowLimit Page.pageInTime outerTable :=
  belowLimit_of_getOldestPage (fun _ => mem_pageIndices) h

theorem belowLimit_of_getLruPage {outerTable : OuterTable} {victim : PageIndex}
    (h : getLruPage outerTable = some victim) : BelowLimit Page.lastUsedTime outerTable :=
  belowLimit_of_getOldestPage (fun _ => mem_pageIndices) h

/-- As long as the clock is below the limit, all times are. -/
theorem MemoryInv.belowLimit (hinv : MemoryInv m used t memory) (hused : 0 < used)
    (ht : (t : Int) < timeLimit) : BelowLimit Page.lastUsedTime memory.outerTable := by
  obtain ⟨q, hq, -⟩ := hinv.frame_held 0 hused
  have htimes := hinv.times q hq
  exact ⟨q, hq, by omega⟩

/-- A page that was last used before the limit was brought in before it. -/
theorem MemoryInv.belowLimit_pageIn (hinv : MemoryInv m used t memory)
    (h : BelowLimit Page.lastUsedTime memory.outerTable) :
    BelowLimit Page.pageInTime memory.outerTable := by
  obtain ⟨q, hq, hlt⟩ := h
  have htimes := hinv.times q hq
  exact ⟨q, hq, by omega⟩

/-- With a valid page below the limit for either search, that of the algorithm finds its victim. -/
theorem getVictimPage_eq {outerTable : OuterTable} {paramStore : ParamStore}
    (halg : paramStore.replacementAlgorithm ≠ .unknown)
    (hfifo : BelowLimit Page.pageInTime outerTable)
    (hlru : BelowLimit Page.lastUsedTime outerTable) :
    ∃ victim, getVictimPage paramStore outerTable = .ok victim ∧
      Resident outerTable victim ∧ ∀ q, Resident outerTable q →
        victimTime paramStore.replacementAlgorithm (outerTable victim)
          ≤ victimTime paramStore.replacementAlgorithm (outerTable q) := by
  obtain ⟨first, hfirst, hfirstVictim⟩ := getFifoPage_eq hfifo
  obtain ⟨least, hleast, hleastVictim⟩ := getLruPage_eq hlru
  rw [getVictimPage, hfirst, hleast]
  cases hcase : paramStore.replacementAlgorithm with
  | unknown => exact absurd hcase halg
  | lru => exact ⟨least, rfl, hleastVictim⟩
  | fifo => exact ⟨first, rfl, hfirstVictim⟩

/-- Without one for the last use there is no victim. -/
theorem belowLimit_of_getVictimPage {outerTable : OuterTable} {paramStore : ParamStore}
    {victim : PageIndex} (h : getVictimPage paramStore outerTable = .ok victim) :
    BelowLimit Page.lastUsedTime outerTable := by
  obtain ⟨first, -, h⟩ := Outcome.bind_eq_ok.mp h
  obtain ⟨least, hleast, -⟩ := Outcome.bind_eq_ok.mp h
  exact belowLimit_of_getLruPage (Outcome.ofOption_eq_ok.mp hleast)

theorem takeFrame_used {f : Nat} (hf : f < used) :
    takeFrame (framesInUse used) f = .ok (framesInUse used) := by
  have hset : (framesInUse used).set f { taken := true } = framesInUse used := by
    apply List.ext_getElem (by simp)
    intro i hi hi'
    rw [List.getElem_set]
    split
    · next h => subst h; simp [framesInUse, hf]
    · rfl
  rw [takeFrame, if_pos, Int.toNat_natCast, hset]
  simp [framesInUse]
  omega

theorem takeFrame_first (hused : used < maxFrameCount) :
    takeFrame (framesInUse used) used = .ok (framesInUse (used + 1)) := by
  have hset : (framesInUse used).set used { taken := true } = framesInUse (used + 1) := by
    have hsplit : maxFrameCount - used = maxFrameCount - (used + 1) + 1 := by omega
    rw [framesInUse, framesInUse, hsplit, List.replicate_succ, List.set_append_right _ _ (by simp),
      List.length_replicate, Nat.sub_self, List.set_cons_zero, List.replicate_succ',
      List.append_assoc, List.singleton_append]
  rw [takeFrame, if_pos, Int.toNat_natCast, hset]
  simp [framesInUse]
  omega

end Searches

/-! ## Nothing is resident at first -/

theorem not_resident_init (page : PageIndex) : ¬ Resident initOuterPageTable page := by
  rintro ⟨-, hvalid⟩
  cases hvalid

theorem memoryInv_init (m : Nat) :
    MemoryInv m 0 0 { frames := initFrameTable, outerTable := initOuterPageTable } := by
  refine ⟨Nat.zero_le _, rfl, ?_, ?_, ?_, ?_, ?_, ?_⟩
  · intro p hp
    exact absurd hp (not_resident_init p)
  · intro p q hp
    exact absurd hp (not_resident_init p)
  · intro f hf
    cases hf
  · intro p q hp
    exact absurd hp (not_resident_init p)
  · intro p q hp
    exact absurd hp (not_resident_init p)
  · intro p hp
    exact absurd hp (not_resident_init p)

/-! ## The step seen from the outside -/

section Step

variable {m used t t' : Nat} {memory : Memory} {paramStore : ParamStore} {page : PageIndex}

/-- **A page fault** loads the page into the first unused frame or into a victim's. The time of the
last use is only set after it. -/
theorem handlePageFault_spec (t' : Nat) (hinv : MemoryInv m used t memory)
    (hbelow : used = m → BelowLimit Page.lastUsedTime memory.outerTable)
    (hfree : findFirstFreeFrame paramStore memory.frames
      = .ok (if used < m then (used : Int) else -1)) (hmax : m ≤ maxFrameCount)
    (halg : paramStore.replacementAlgorithm ≠ .unknown) (hpage : ¬ Resident memory.outerTable page)
    (result : PagingResult) :
    ∃ used' mid frame, handlePageFault paramStore t' page memory result
        = .ok (mid, { result with causedPageFault := true, replacedFrameIndex := (frame : Nat) }) ∧
      (mid.outerTable page).frame = frame ∧
      PageStep m (victimTime paramStore.replacementAlgorithm) t' page used memory used'
        (touchPage t' page mid) true frame := by
  have hframes := hinv.frames_eq
  rw [hframes] at hfree
  by_cases hlt : used < m
  · -- a frame is free
    have hstep : PageStep m (victimTime paramStore.replacementAlgorithm) t' page used memory
        (used + 1) (fillFrame used t' page memory) true used := .fill hpage hlt
    refine ⟨used + 1, ⟨framesInUse (used + 1), Function.update memory.outerTable page
      { memory.outerTable page with frame := used, valid := true, pageInTime := t' }⟩, used,
      ?_, by simp, ?_⟩
    · simp [handlePageFault, hframes, hfree, hlt,
        takeFrame_first (show used < maxFrameCount by omega)]
    · simpa [touchPage, fillFrame, loadedPage] using hstep
  · -- all are in use: the victim is marked invalid, and its frame is taken over
    have hused : used = m := by have := hinv.used_le; omega
    subst hused
    obtain ⟨victim, hvictim, hresident, hmin⟩ :=
      getVictimPage_eq halg (hinv.belowLimit_pageIn (hbelow rfl)) (hbelow rfl)
    obtain ⟨frame, hframe, hheld⟩ := hinv.frame_used victim hresident
    have hstep : PageStep used (victimTime paramStore.replacementAlgorithm) t' page used memory
        used (replacePage victim frame t' page memory) true frame :=
      .evict hpage hresident hmin hheld hframe
    -- so the two updates of the table do not meet
    have hne : page ≠ victim := fun h => hpage (h ▸ hresident)
    refine ⟨used, ⟨framesInUse used, Function.update (Function.update memory.outerTable victim
      { memory.outerTable victim with valid := false }) page
      { memory.outerTable page with frame := frame, valid := true, pageInTime := t' }⟩, frame,
      ?_, by simp, ?_⟩
    · simp [handlePageFault, hframes, hfree, hvictim, hheld,
        takeFrame_used hframe, Function.update_of_ne hne]
    · have hmem : memory = ⟨framesInUse used, memory.outerTable⟩ := by rw [← hframes]
      rw [hmem] at hstep ⊢
      simpa [touchPage, replacePage, loadedPage] using hstep

/-! ## The step keeps the invariant -/

theorem resident_touchPage {q : PageIndex} :
    Resident (touchPage t' page memory).outerTable q ↔ Resident memory.outerTable q := by
  unfold Resident touchPage
  show InTable q ∧ (Function.update memory.outerTable page _ q).valid = true ↔ _
  rw [Function.update_apply]
  split
  · next h => rw [h]
  · rfl

theorem MemoryInv.mono (hinv : MemoryInv m used t memory) (ht : t ≤ t') :
    MemoryInv m used t' memory :=
  { hinv with times := fun p hp => ⟨(hinv.times p hp).1, by have := (hinv.times p hp).2; omega⟩ }

theorem MemoryInv.touch (hinv : MemoryInv m used t memory) (ht : t < t') :
    MemoryInv m used t' (touchPage t' page memory) := by
  have hframe : ∀ q, ((touchPage t' page memory).outerTable q).frame
      = (memory.outerTable q).frame := by
    intro q; simp only [touchPage, Function.update_apply]; split <;> simp [*]
  have hpageIn : ∀ q, ((touchPage t' page memory).outerTable q).pageInTime
      = (memory.outerTable q).pageInTime := by
    intro q; simp only [touchPage, Function.update_apply]; split <;> simp [*]
  have hlast : ∀ q, ((touchPage t' page memory).outerTable q).lastUsedTime
      = if q = page then (t' : Int) else (memory.outerTable q).lastUsedTime := by
    intro q; simp only [touchPage, Function.update_apply]; split <;> simp [*]
  refine ⟨hinv.used_le, hinv.frames_eq, ?_, ?_, ?_, ?_, ?_, ?_⟩
    <;> simp only [resident_touchPage, hframe, hpageIn, hlast]
  · exact hinv.frame_used
  · exact hinv.frame_inj
  · exact hinv.frame_held
  · exact hinv.pageIn_inj
  · -- the new time is above all the old ones
    intro p q hp hq heq
    have hpt := (hinv.times p hp).2
    have hqt := (hinv.times q hq).2
    split at heq <;> split at heq
    · next h h' => rw [h, h']
    · omega
    · omega
    · exact hinv.lastUsed_inj p q hp hq heq
  · intro p hp
    have := hinv.times p hp
    split <;> omega

/-- A field that tells the old pages apart, and the loaded page from them, tells all apart. -/
theorem load_inj {memory' : Memory} (field : Page → Int)
    (hinj : ∀ p q, Resident memory.outerTable p → Resident memory.outerTable q →
      field (memory.outerTable p) = field (memory.outerTable q) → p = q)
    (hold : ∀ q, q ≠ page → Resident memory'.outerTable q → Resident memory.outerTable q ∧
      memory'.outerTable q = memory.outerTable q)
    (hnew : ∀ q, q ≠ page → Resident memory'.outerTable q →
      field (memory.outerTable q) ≠ field (memory'.outerTable page)) :
    ∀ p q, Resident memory'.outerTable p → Resident memory'.outerTable q →
      field (memory'.outerTable p) = field (memory'.outerTable q) → p = q := by
  intro p q hp hq heq
  -- either is the loaded page, or both are old ones
  by_cases h : p = page <;> by_cases h' : q = page
  · rw [h, h']
  · rw [h, (hold q h' hq).2] at heq
    exact absurd heq.symm (hnew q h' hq)
  · rw [h', (hold p h hp).2] at heq
    exact absurd heq (hnew p h hp)
  · rw [(hold p h hp).2, (hold q h' hq).2] at heq
    exact hinj p q (hold p h hp).1 (hold q h' hq).1 heq

/-- A load into a frame that no page holds on to. -/
theorem MemoryInv.load {memory' : Memory} {used' frame : Nat} (hinv : MemoryInv m used t memory)
    (ht : t < t') (hused : used ≤ used') (hle : used' ≤ m)
    (hframes : memory'.frames = framesInUse used') (hframe : frame < used')
    (hpage : InTable page) (hloaded : memory'.outerTable page = loadedPage frame t')
    (hold : ∀ q, q ≠ page → Resident memory'.outerTable q → Resident memory.outerTable q ∧
      memory'.outerTable q = memory.outerTable q)
    (hfree : ∀ q, q ≠ page → Resident memory'.outerTable q →
      (memory.outerTable q).frame ≠ (frame : Int))
    (hheld : ∀ f < used', f ≠ frame → ∃ q, Resident memory'.outerTable q ∧
      (memory'.outerTable q).frame = (f : Int)) :
    MemoryInv m used' t' memory' := by
  have hresident : Resident memory'.outerTable page := ⟨hpage, by rw [hloaded]; rfl⟩
  -- the times of the load are above all the old ones
  have hlate : ∀ q, q ≠ page → Resident memory'.outerTable q →
      (memory.outerTable q).pageInTime < t' ∧ (memory.outerTable q).lastUsedTime < t' := by
    intro q hq hres
    have := hinv.times q (hold q hq hres).1
    omega
  refine ⟨hle, hframes, ?_, load_inj Page.frame hinv.frame_inj hold ?_, ?_,
    load_inj Page.pageInTime hinv.pageIn_inj hold ?_,
    load_inj Page.lastUsedTime hinv.lastUsed_inj hold ?_, ?_⟩
  · intro p hp
    by_cases h : p = page
    · exact ⟨frame, hframe, by rw [h, hloaded]; rfl⟩
    · obtain ⟨f, hf, hpf⟩ := hinv.frame_used p (hold p h hp).1
      exact ⟨f, by omega, by rw [(hold p h hp).2, hpf]⟩
  · intro q hq hres
    rw [hloaded]
    exact hfree q hq hres
  · intro f hf
    by_cases h : f = frame
    · exact ⟨page, hresident, by rw [hloaded, h]; rfl⟩
    · exact hheld f hf h
  · intro q hq hres
    rw [hloaded]
    exact (hlate q hq hres).1.ne
  · intro q hq hres
    rw [hloaded]
    exact (hlate q hq hres).2.ne
  · intro p hp
    by_cases h : p = page
    · rw [h, hloaded]
      exact ⟨le_refl _, le_refl _⟩
    · have := hinv.times p (hold p h hp).1
      rw [(hold p h hp).2]
      omega

theorem fillFrame_self (used t : Nat) (page : PageIndex) (memory : Memory) :
    (fillFrame used t page memory).outerTable page = loadedPage used t :=
  Function.update_self _ _ _

theorem resident_fillFrame {q : PageIndex} (hpage : InTable page) :
    Resident (fillFrame used t' page memory).outerTable q
      ↔ q = page ∨ Resident memory.outerTable q := by
  unfold Resident fillFrame
  show InTable q ∧ (Function.update memory.outerTable page _ q).valid = true ↔ _
  by_cases h : q = page
  · simp [h, hpage, loadedPage]
  · rw [Function.update_of_ne h]
    simp [h]

theorem resident_replacePage {q victim : PageIndex} {frame : Nat} (hpage : InTable page) :
    Resident (replacePage victim frame t' page memory).outerTable q
      ↔ q = page ∨ (q ≠ victim ∧ Resident memory.outerTable q) := by
  unfold Resident replacePage
  show InTable q ∧ (Function.update (Function.update memory.outerTable victim _) page _ q).valid
    = true ↔ _
  by_cases h : q = page
  · simp [h, hpage, loadedPage]
  · rw [Function.update_of_ne h]
    by_cases hv : q = victim
    · subst hv
      simp [h]
    · rw [Function.update_of_ne hv]
      simp [h, hv]

/-- **Every step keeps the invariant**: one case per kind of step. -/
theorem PageStep.inv {time : Page → Int} {used' frame : Nat} {memory' : Memory} {fault : Bool}
    (hstep : PageStep m time t' page used memory used' memory' fault frame)
    (hinv : MemoryInv m used t memory) (ht : t < t') (hpage : InTable page) :
    MemoryInv m used' t' memory' := by
  cases hstep with
  | hit hres hframe => exact hinv.touch ht
  | fill hnot hlt =>
      have hkept : ∀ q, q ≠ page →
          (fillFrame used t' page memory).outerTable q = memory.outerTable q :=
        fun q hq => Function.update_of_ne hq _ _
      have hold : ∀ q, q ≠ page → Resident (fillFrame used t' page memory).outerTable q →
          Resident memory.outerTable q :=
        fun q hq hres => ((resident_fillFrame hpage).mp hres).resolve_left hq
      apply hinv.load ht (Nat.le_succ _) hlt rfl (Nat.lt_succ_self _) hpage
        (fillFrame_self _ _ _ _)
      · intro q hq hres
        exact ⟨hold q hq hres, hkept q hq⟩
      · -- the frame is the first unused one
        intro q hq hres heq
        obtain ⟨f, hf, hqf⟩ := hinv.frame_used q (hold q hq hres)
        omega
      · intro f hf hne
        obtain ⟨q, hres, hqf⟩ := hinv.frame_held f (by omega)
        have hq : q ≠ page := fun h => hnot (h ▸ hres)
        exact ⟨q, (resident_fillFrame hpage).mpr (Or.inr hres), by rw [hkept q hq, hqf]⟩
  | @evict _ victim _ hnot hvictim hmin hheld hframe =>
      have hkept : ∀ q, q ≠ page → q ≠ victim →
          (replacePage victim frame t' page memory).outerTable q = memory.outerTable q := by
        intro q hq hv
        show Function.update (Function.update memory.outerTable victim _) page _ q = _
        rw [Function.update_of_ne hq, Function.update_of_ne hv]
      have hold : ∀ q, q ≠ page →
          Resident (replacePage victim frame t' page memory).outerTable q →
          q ≠ victim ∧ Resident memory.outerTable q :=
        fun q hq hres => ((resident_replacePage hpage).mp hres).resolve_left hq
      have hframes : (replacePage victim frame t' page memory).frames = framesInUse m :=
        hinv.frames_eq
      apply hinv.load ht (le_refl _) (le_refl _) hframes hframe hpage (Function.update_self _ _ _)
      · intro q hq hres
        exact ⟨(hold q hq hres).2, hkept q hq (hold q hq hres).1⟩
      · intro q hq hres heq
        -- the frame was the victim's alone
        exact (hold q hq hres).1 (hinv.frame_inj q victim (hold q hq hres).2 hvictim
          (by rw [heq, hheld]))
      · intro f hf hne
        obtain ⟨q, hres, hqf⟩ := hinv.frame_held f hf
        have hq : q ≠ page := fun h => hnot (h ▸ hres)
        -- the victim held the frame itself
        have hv : q ≠ victim := fun h => hne (by rw [h, hheld] at hqf; omega)
        exact ⟨q, (resident_replacePage hpage).mpr (Or.inr ⟨hv, hres⟩),
          by rw [hkept q hq hv, hqf]⟩

theorem PageStep.frame_lt {time : Page → Int} {used' frame : Nat} {memory' : Memory} {fault : Bool}
    (hstep : PageStep m time t' page used memory used' memory' fault frame)
    (hinv : MemoryInv m used t memory) : frame < m := by
  have hle := hinv.used_le
  cases hstep with
  | hit hres hheld =>
      obtain ⟨f, hf, heq⟩ := hinv.frame_used page hres
      omega
  | fill hnot hlt => exact hlt
  | evict hnot hvictim hmin hheld hframe => exact hframe

end Step

/-! ## One iteration -/

/-- What the simulation needs of its parameters. -/
structure ValidParams (m : Nat) (paramStore : ParamStore) : Prop where
  frames_eq : paramStore.numOfFrames = m
  pos : 1 ≤ m
  le_max : m ≤ maxFrameCount
  known : paramStore.replacementAlgorithm ≠ .unknown

/-- The entry of an address outside every region, as it is to be. -/
def exceptionResult (address : BitVec 32) : PagingResult where
  virtualAddress := some address
  physicalAddress := none
  replacedFrameIndex := -1
  causedPageFault := false
  unusedMemoryAccessException := true

/-- The entry of an address whose page was found in, or loaded into, a frame of 4096 bytes. -/
def servedResult (address : BitVec 32) (fault : Bool) (frame : Nat) : PagingResult where
  virtualAddress := some address
  physicalAddress := some (frame * 4096 + address.toNat % 4096 : Nat)
  replacedFrameIndex := if fault then frame else -1
  causedPageFault := fault
  unusedMemoryAccessException := false

theorem getPhysicalAddress_eq (frame : Nat) (address : BitVec 32) :
    getPhysicalAddress frame (address.toNat % 2 ^ 12)
      = (frame * 4096 + address.toNat % 4096 : Nat) := by
  rw [getPhysicalAddress]
  push_cast
  norm_num

section Iteration

variable {m used : Nat} {paramStore : ParamStore} {s : SimulationState} {address : BitVec 32}
  {result : PagingResult}

/-- An address in a region whose page is not valid. -/
theorem simulateAddress_miss (hslot : s.results[s.t]? = some result)
    (hrange : isVirtualAddressInRange paramStore.virtualRegions address = true)
    (hvalid : (s.memory.outerTable (pageOf address)).valid = false) :
    simulateAddress paramStore s address = (do
      let (memory, currentResult) ← handlePageFault paramStore (s.t + 1) (pageOf address) s.memory
        { result with virtualAddress := some address }
      let memory := touchPage (s.t + 1) (pageOf address) memory
      return {
        t := s.t + 1
        memory := memory
        results := s.results.set s.t { currentResult with
          physicalAddress := some (getPhysicalAddress (memory.outerTable (pageOf address)).frame
            (address.toNat % 2 ^ 12)) } }) := by
  have hpage : InTable (pageOf address) := pageOf_lt address
  simp [simulateAddress, hslot, hrange, getLogicalAddress_eq, pageAt, hpage, hvalid, touchPage]

/-- An address in a region whose page is valid. -/
theorem simulateAddress_hit (hslot : s.results[s.t]? = some result)
    (hrange : isVirtualAddressInRange paramStore.virtualRegions address = true)
    (hvalid : (s.memory.outerTable (pageOf address)).valid = true) :
    simulateAddress paramStore s address = .ok {
      t := s.t + 1
      memory := touchPage (s.t + 1) (pageOf address) s.memory
      results := s.results.set s.t { result with
        virtualAddress := some address
        physicalAddress := some (getPhysicalAddress
          (s.memory.outerTable (pageOf address)).frame (address.toNat % 2 ^ 12)) } } := by
  have hpage : InTable (pageOf address) := pageOf_lt address
  simp [simulateAddress, hslot, hrange, getLogicalAddress_eq, pageAt, hpage, hvalid, touchPage]

theorem simulateAddress_outside (hslot : s.results[s.t]? = some result)
    (hrange : isVirtualAddressInRange paramStore.virtualRegions address = false) :
    simulateAddress paramStore s address = .ok {
      t := s.t + 1
      memory := s.memory
      results := s.results.set s.t { result with
        virtualAddress := some address
        unusedMemoryAccessException := true } } := by
  simp [simulateAddress, hslot, hrange]

theorem simulateAddress_outOfRange (hslot : s.results[s.t]? = some initPagingResult)
    (hrange : isVirtualAddressInRange paramStore.virtualRegions address = false) :
    simulateAddress paramStore s address = .ok {
      t := s.t + 1
      memory := s.memory
      results := s.results.set s.t (exceptionResult address) } :=
  simulateAddress_outside hslot hrange

/-- **One iteration** on an address in a region is a step of its page, unless a victim is needed
and cannot be found. -/
theorem simulateAddress_inRange (hparams : ValidParams m paramStore)
    (hinv : MemoryInv m used s.t s.memory)
    (hbelow : used = m → BelowLimit Page.lastUsedTime s.memory.outerTable)
    (hslot : s.results[s.t]? = some initPagingResult)
    (hrange : isVirtualAddressInRange paramStore.virtualRegions address = true) :
    ∃ used' memory' fault frame,
      simulateAddress paramStore s address = .ok {
        t := s.t + 1
        memory := memory'
        results := s.results.set s.t (servedResult address fault frame) } ∧
      PageStep m (victimTime paramStore.replacementAlgorithm) (s.t + 1) (pageOf address)
        used s.memory used' memory' fault frame := by
  have hpage : InTable (pageOf address) := pageOf_lt address
  by_cases hvalid : (s.memory.outerTable (pageOf address)).valid = true
  · -- a hit only writes the time of the last use
    have hresident : Resident s.memory.outerTable (pageOf address) := ⟨hpage, hvalid⟩
    obtain ⟨frame, -, hframe⟩ := hinv.frame_used _ hresident
    refine ⟨used, touchPage (s.t + 1) (pageOf address) s.memory, false, frame, ?_,
      .hit hresident hframe⟩
    rw [simulateAddress_hit hslot hrange hvalid, hframe, getPhysicalAddress_eq]
    rfl
  · have hnot : ¬ Resident s.memory.outerTable (pageOf address) := fun h => hvalid h.2
    obtain ⟨used', mid, frame, hfault, hframe, hstep⟩ := handlePageFault_spec (s.t + 1) hinv hbelow
      (findFirstFreeFrame_eq hinv hparams.frames_eq hparams.le_max) hparams.le_max hparams.known
      hnot
      { initPagingResult with virtualAddress := some address }
    have htouch : ((touchPage (s.t + 1) (pageOf address) mid).outerTable (pageOf address)).frame
        = frame := by
      simp [touchPage, hframe]
    refine ⟨used', _, true, frame, ?_, hstep⟩
    rw [simulateAddress_miss hslot hrange (Bool.eq_false_iff.mpr hvalid), hfault]
    simp only [Outcome.ok_bind, Outcome.pure_eq, htouch, getPhysicalAddress_eq]
    rfl

end Iteration

end Cs342.Paging
