import Mathlib

/-!
# Page replacement: the reference machines

A memory of `m` frames holds a list of resident pages with their frames, the next victim at its
head. A reference to a resident page is a hit; a missing page takes the next unused frame, or the
frame of the victim when all are used, and goes to the end of the list. The machines differ in what
a hit does: under LRU the page moves to the end, under FIFO the list stays as it is.

One more frame never hurts LRU (**`serve_includes`**): the pages of the smaller memory are the most
recent pages of the larger one, whatever is requested.
-/

namespace Replacement

variable {α : Type} [DecidableEq α]

/-- How a reference was served. -/
structure Served where
  fault : Bool
  frame : Nat
  deriving DecidableEq, Repr

/-- The resident pages with their frames, the next victim first. -/
abbrev Resident (α : Type) := List (α × Nat)

/-- Bring in a page that is not resident. -/
def load (m : Nat) (resident : Resident α) (page : α) : Resident α × Served :=
  if resident.length < m then
    (resident ++ [(page, resident.length)], { fault := true, frame := resident.length })
  else
    match resident with
    | [] => ([], { fault := true, frame := 0 })
    | victim :: rest => (rest ++ [(page, victim.2)], { fault := true, frame := victim.2 })

/-- Serve a reference, with what a hit does to the list. -/
def access (touch : Resident α → α × Nat → Resident α) (m : Nat) (resident : Resident α)
    (page : α) : Resident α × Served :=
  match resident.find? fun e => decide (e.1 = page) with
  | some e => (touch resident e, { fault := false, frame := e.2 })
  | none => load m resident page

/-- LRU: a hit makes the page the most recent one. -/
def lruTouch (resident : Resident α) (e : α × Nat) : Resident α :=
  resident.filter (fun d => decide (d.1 ≠ e.1)) ++ [e]

/-- FIFO: a hit does not reorder the queue. -/
def fifoTouch (resident : Resident α) (_ : α × Nat) : Resident α := resident

def lruAccess : Nat → Resident α → α → Resident α × Served := access lruTouch

def fifoAccess : Nat → Resident α → α → Resident α × Served := access fifoTouch

/-- Serve a list of requests, one after the other; a request for no page changes nothing. -/
def serve (access : Resident α → α → Resident α × Served) (resident : Resident α) :
    List (Option α) → Resident α × List (Option Served)
  | [] => (resident, [])
  | none :: requests =>
    let (resident, served) := serve access resident requests
    (resident, none :: served)
  | some page :: requests =>
    let (resident, first) := access resident page
    let (resident, served) := serve access resident requests
    (resident, some first :: served)

/-! ## Laws -/

/-- A page with its frame in a list of distinct pages is what a lookup finds. -/
theorem find?_eq_some_of_mem {resident : Resident α} (hn : (resident.map Prod.fst).Nodup)
    {page : α} {frame : Nat} (h : (page, frame) ∈ resident) :
    resident.find? (fun e => decide (e.1 = page)) = some (page, frame) := by
  induction resident with
  | nil => cases h
  | cons e rest ih =>
      rw [List.map_cons, List.nodup_cons] at hn
      rcases List.mem_cons.mp h with rfl | h
      · simp
      · have hne : e.1 ≠ page := fun he => hn.1 (he ▸ List.mem_map_of_mem h)
        rw [List.find?_cons_of_neg (by simpa using hne)]
        exact ih hn.2 h

theorem find?_eq_none_of_forall {resident : Resident α} {page : α}
    (h : ∀ frame, (page, frame) ∉ resident) :
    resident.find? (fun e => decide (e.1 = page)) = none := by
  rw [List.find?_eq_none]
  rintro ⟨q, frame⟩ he heq
  have : q = page := by simpa using heq
  exact h frame (this ▸ he)

theorem mem_lruTouch {resident : Resident α} (hn : (resident.map Prod.fst).Nodup) {d e : α × Nat}
    (he : e ∈ resident) : d ∈ lruTouch resident e ↔ d ∈ resident := by
  unfold lruTouch
  rw [List.mem_append, List.mem_singleton, List.mem_filter, decide_eq_true_iff]
  constructor
  · rintro (⟨hd, -⟩ | rfl)
    · exact hd
    · exact he
  · intro hd
    by_cases h : d.1 = e.1
    · exact Or.inr (List.inj_on_of_nodup_map hn hd he h)
    · exact Or.inl ⟨hd, h⟩

/-- A hit keeps the pages that are resident. -/
theorem lruTouch_perm {resident : Resident α} (hn : (resident.map Prod.fst).Nodup) {e : α × Nat}
    (he : e ∈ resident) : (lruTouch resident e).Perm resident := by
  have hnodup : (lruTouch resident e).Nodup := by
    apply List.nodup_append.mpr
    refine ⟨hn.of_map.filter _, List.nodup_singleton e, ?_⟩
    intro d hd c hc heq
    have hne : d.1 ≠ e.1 := of_decide_eq_true (List.mem_filter.mp hd).2
    rw [heq, List.mem_singleton.mp hc] at hne
    exact hne rfl
  apply (List.perm_ext_iff_of_nodup hnodup hn.of_map).mpr
  intro d
  exact mem_lruTouch hn he

/-- **Hit.** -/
theorem access_hit {touch : Resident α → α × Nat → Resident α} {m : Nat} {resident : Resident α}
    (hn : (resident.map Prod.fst).Nodup) {page : α} {frame : Nat} (h : (page, frame) ∈ resident) :
    access touch m resident page
      = (touch resident (page, frame), { fault := false, frame := frame }) := by
  rw [access, find?_eq_some_of_mem hn h]

/-- **Miss with an unused frame.** -/
theorem access_miss {touch : Resident α → α × Nat → Resident α} {m : Nat} {resident : Resident α}
    {page : α} (h : ∀ frame, (page, frame) ∉ resident) (hlt : resident.length < m) :
    access touch m resident page = (resident ++ [(page, resident.length)],
      { fault := true, frame := resident.length }) := by
  rw [access, find?_eq_none_of_forall h]
  show load m resident page = _
  unfold load
  rw [if_pos hlt]

/-- **Miss with all frames in use.** -/
theorem access_evict {touch : Resident α → α × Nat → Resident α} {m : Nat} {victim : α × Nat}
    {rest : Resident α} {page : α} (h : ∀ frame, (page, frame) ∉ victim :: rest)
    (hge : m ≤ (victim :: rest).length) :
    access touch m (victim :: rest) page
      = (rest ++ [(page, victim.2)], { fault := true, frame := victim.2 }) := by
  rw [access, find?_eq_none_of_forall h]
  show load m (victim :: rest) page = _
  unfold load
  rw [if_neg (not_lt.mpr hge)]

omit [DecidableEq α] in
theorem serve_append (access : Resident α → α → Resident α × Served) (resident : Resident α)
    (first second : List (Option α)) :
    serve access resident (first ++ second)
      = ((serve access (serve access resident first).1 second).1,
        (serve access resident first).2 ++
          (serve access (serve access resident first).1 second).2) := by
  induction first generalizing resident with
  | nil => rfl
  | cons request first ih =>
      cases request with
      | none => simp only [List.cons_append, serve, ih]
      | some page => simp only [List.cons_append, serve, ih]

omit [DecidableEq α] in
/-- Requests for no page change nothing. -/
theorem serve_replicate_none (access : Resident α → α → Resident α × Served)
    (resident : Resident α) (n : Nat) :
    serve access resident (List.replicate n none) = (resident, List.replicate n none) := by
  induction n with
  | zero => rfl
  | succ n ih => simp only [List.replicate_succ, serve, ih]

omit [DecidableEq α] in
theorem length_serve (access : Resident α → α → Resident α × Served) (resident : Resident α)
    (requests : List (Option α)) :
    (serve access resident requests).2.length = requests.length := by
  induction requests generalizing resident with
  | nil => rfl
  | cons request requests ih =>
      cases request with
      | none => simp [serve, ih]
      | some page => simp [serve, ih]

/-! ## One more frame under LRU -/

/-- The pages of an LRU memory after a reference. -/
def lruPages (m : Nat) (pages : List α) (page : α) : List α :=
  if page ∈ pages then pages.erase page ++ [page]
  else if pages.length < m then pages ++ [page]
  else pages.tail ++ [page]

theorem nodup_lruPages (m : Nat) {pages : List α} (hn : pages.Nodup) (page : α) :
    (lruPages m pages page).Nodup := by
  have hconcat : ∀ {rest : List α}, rest.Nodup → page ∉ rest → (rest ++ [page]).Nodup := by
    intro rest hrest hnot
    rw [← List.concat_eq_append]
    exact hrest.concat hnot
  unfold lruPages
  split
  · exact hconcat (hn.erase page) hn.not_mem_erase
  · next hmiss =>
      split
      · exact hconcat hn hmiss
      · exact hconcat (hn.sublist (List.tail_sublist _)) fun h => hmiss (List.mem_of_mem_tail h)

/-- A reference changes the pages so, and is a fault if the page was missing. -/
theorem lruAccess_pages {m : Nat} (hm : 1 ≤ m) {resident : Resident α}
    (hn : (resident.map Prod.fst).Nodup) (page : α) :
    (lruAccess m resident page).1.map Prod.fst = lruPages m (resident.map Prod.fst) page ∧
      ((lruAccess m resident page).2.fault = true ↔ page ∉ resident.map Prod.fst) := by
  unfold lruPages
  by_cases hmem : page ∈ resident.map Prod.fst
  · obtain ⟨⟨p, frame⟩, he, rfl⟩ := List.mem_map.mp hmem
    rw [if_pos hmem, lruAccess, access_hit hn he, hn.erase_eq_filter]
    refine ⟨?_, by simp [hmem]⟩
    simp only [lruTouch, List.map_append, List.filter_map, List.map_singleton]
    congr 2
    apply List.filter_congr
    intro e _
    simp only [bne, Function.comp_apply, ne_eq, decide_not]
    rfl
  · have hmiss : ∀ frame, (page, frame) ∉ resident :=
      fun frame h => hmem (List.mem_map_of_mem (f := Prod.fst) h)
    rw [if_neg hmem, List.length_map]
    by_cases hlt : resident.length < m
    · rw [if_pos hlt, lruAccess, access_miss hmiss hlt]
      exact ⟨by simp, by simp [hmem]⟩
    · rw [if_neg hlt]
      cases resident with
      | nil => exact absurd hm hlt
      | cons victim rest =>
          rw [lruAccess, access_evict hmiss (not_lt.mp hlt)]
          exact ⟨by simp, by simp only [hmem, not_false_eq_true]⟩

/-- The pages of a smaller memory are the most recent pages of a larger one; it is full, unless the
larger one has no more pages. -/
structure Includes (m : Nat) (small large : List α) : Prop where
  suffix : small <:+ large
  nodup : large.Nodup
  full : small.length = large.length ∨ m ≤ small.length

/-- **The step**: the inclusion survives a reference, in each combination of hits and misses. -/
theorem Includes.step {m : Nat} {small large : List α} (hm : 1 ≤ m) (h : Includes m small large)
    (page : α) : Includes m (lruPages m small page) (lruPages (m + 1) large page) := by
  have hnodup := nodup_lruPages (m + 1) h.nodup page
  obtain ⟨⟨older, rfl⟩, hn, hfull⟩ := h
  rw [List.length_append] at hfull
  suffices hboth : lruPages m small page <:+ lruPages (m + 1) (older ++ small) page ∧
      ((lruPages m small page).length = (lruPages (m + 1) (older ++ small) page).length ∨
        m ≤ (lruPages m small page).length) from ⟨hboth.1, hnodup, hboth.2⟩
  clear hnodup
  unfold lruPages
  by_cases hsmall : page ∈ small
  · -- a hit in both
    have hnot : page ∉ older := fun h => List.disjoint_of_nodup_append hn h hsmall
    have hlength := List.length_erase_of_mem hsmall
    have hpos := List.length_pos_of_mem hsmall
    rw [if_pos hsmall, if_pos (List.mem_append_right _ hsmall), List.erase_append_right _ hnot]
    refine ⟨⟨older, by simp⟩, ?_⟩
    simp only [List.length_append, List.length_singleton]
    omega
  · rw [if_neg hsmall]
    by_cases holder : page ∈ older
    · -- a hit in the larger memory alone, so the smaller one is full
      have hpos := List.length_pos_of_mem holder
      obtain ⟨victim, rest, rfl⟩ := List.exists_cons_of_length_pos (by omega : 0 < small.length)
      rw [if_neg (by omega), if_pos (List.mem_append_left _ holder),
        List.erase_append_left _ holder]
      refine ⟨⟨older.erase page ++ [victim], by simp⟩, Or.inr ?_⟩
      simp only [List.length_cons, List.tail_cons, List.length_append, List.length_nil] at hfull ⊢
      omega
    · have hmiss : page ∉ older ++ small := by simp [holder, hsmall]
      rw [if_neg hmiss, List.length_append]
      by_cases hroom : small.length < m
      · -- room in both, which hold the same pages
        have hnil : older = [] := List.length_eq_zero_iff.mp (by omega)
        subst hnil
        rw [if_pos hroom, if_pos (by simp; omega)]
        exact ⟨List.suffix_refl _, Or.inl rfl⟩
      · obtain ⟨victim, rest, rfl⟩ := List.exists_cons_of_length_pos (by omega : 0 < small.length)
        rw [if_neg hroom]
        refine ⟨?_, Or.inr ?_⟩
        · split
          · exact ⟨older ++ [victim], by simp⟩
          · cases older with
            | nil => exact List.suffix_refl _
            | cons oldest older => exact ⟨older ++ [victim], by simp⟩
        · simp only [List.length_cons, List.tail_cons, List.length_append,
            List.length_nil] at hroom ⊢
          omega

/-- What is resident in the memory with `m` frames is in the one with a frame more. -/
def OneFrameMore (m : Nat) (small large : Resident α) : Prop :=
  Includes m (small.map Prod.fst) (large.map Prod.fst)

omit [DecidableEq α] in
theorem oneFrameMore_nil (m : Nat) : OneFrameMore m ([] : Resident α) [] :=
  ⟨List.suffix_refl _, List.nodup_nil, Or.inl rfl⟩

omit [DecidableEq α] in
theorem OneFrameMore.mem {m : Nat} {small large : Resident α} (h : OneFrameMore m small large)
    {e : α × Nat} (he : e ∈ small) : ∃ frame, (e.1, frame) ∈ large := by
  obtain ⟨⟨page, frame⟩, hmem, heq⟩ :=
    List.mem_map.mp (h.suffix.subset (List.mem_map_of_mem (f := Prod.fst) he))
  exact ⟨frame, heq ▸ hmem⟩

/-- The first was a fault only if the second was. -/
def FaultsWith (first second : Option Served) : Prop :=
  ∀ served, first = some served → served.fault = true →
    ∃ served', second = some served' ∧ served'.fault = true

/-- **The run**: with one more frame LRU keeps at least the same pages, and does not fault where it
did not before. -/
theorem serve_includes {m : Nat} (hm : 1 ≤ m) {small large : Resident α}
    (h : OneFrameMore m small large) (requests : List (Option α)) :
    OneFrameMore m (serve (lruAccess m) small requests).1
        (serve (lruAccess (m + 1)) large requests).1 ∧
      List.Forall₂ FaultsWith (serve (lruAccess (m + 1)) large requests).2
        (serve (lruAccess m) small requests).2 := by
  induction requests generalizing small large with
  | nil => exact ⟨h, .nil⟩
  | cons request requests ih =>
      cases request with
      | none =>
          obtain ⟨hincl, hfaults⟩ := ih h
          exact ⟨hincl, .cons (fun served hserved => by cases hserved) hfaults⟩
      | some page =>
          obtain ⟨hsmall, hsfault⟩ :=
            lruAccess_pages hm (h.nodup.sublist h.suffix.sublist) page
          obtain ⟨hlarge, hlfault⟩ := lruAccess_pages (Nat.le_add_left 1 m) h.nodup page
          have hnext : OneFrameMore m (lruAccess m small page).1
              (lruAccess (m + 1) large page).1 := by
            unfold OneFrameMore
            rw [hsmall, hlarge]
            exact Includes.step hm h page
          obtain ⟨hincl, hfaults⟩ := ih hnext
          refine ⟨hincl, .cons ?_ hfaults⟩
          rintro served hserved hfault
          cases hserved
          exact ⟨_, rfl, hsfault.mpr fun hmem => hlfault.mp hfault (h.suffix.subset hmem)⟩

end Replacement
