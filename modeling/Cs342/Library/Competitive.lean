import Mathlib
import Cs342.Library.Replacement

/-!
# Page replacement against schedules that know the future

A schedule may load and drop pages as it likes, before they are requested or after; all that counts
is that a requested page is in memory. Even so a machine that replaces in an orderly way, as LRU and
FIFO do, is not far behind it (**`faults_competitive`**): with `m` frames against `h`,

    (m + 1 - h) * faults ≤ m * loads.

The requests are cut behind every `m`-th fault, counted from the last one. The machine does not drop
a page that it has just loaded before it has loaded `m` others, so in each piece `m` pages are
requested that differ from each other and from the page before the piece (`Recorded.run`); of
these the schedule can have had `h - 1` in memory (`loads_of_faults`).
-/

namespace Replacement

variable {α : Type} [DecidableEq α]

/-! ## Schedules -/

/-- The pages that are requested. -/
def requested (requests : List (Option α)) : Finset α := requests.reduceOption.toFinset

/-- A schedule in a memory of `h` frames, by the pages it holds after each request. -/
def Schedules (h : Nat) (requests : List (Option α)) (caches : List (Finset α)) : Prop :=
  List.Forall₂ (fun request cache => cache.card ≤ h ∧ ∀ page, request = some page → page ∈ cache)
    requests caches

/-- How many pages a schedule loads, from what it holds at the beginning. -/
def loads : Finset α → List (Finset α) → Nat
  | _, [] => 0
  | cache, next :: caches => (next \ cache).card + loads next caches

@[simp] theorem requested_nil : requested ([] : List (Option α)) = ∅ := rfl

@[simp] theorem requested_cons_none (requests : List (Option α)) :
    requested (none :: requests) = requested requests := rfl

@[simp] theorem requested_cons_some (page : α) (requests : List (Option α)) :
    requested (some page :: requests) = insert page (requested requests) := by
  unfold requested
  rw [List.reduceOption_cons_of_some, List.toFinset_cons]

theorem loads_append (cache : Finset α) (first second : List (Finset α)) :
    loads cache (first ++ second) = loads cache first + loads (first.getLastD cache) second := by
  induction first generalizing cache with
  | nil => rw [List.nil_append, List.getLastD_nil, loads, Nat.zero_add]
  | cons next first ih =>
      rw [List.cons_append, loads, loads, ih, List.getLastD_cons, Nat.add_assoc]

/-- A page that is requested has been there at the beginning or is loaded. -/
theorem card_requested_le_loads {h : Nat} {requests : List (Option α)} {caches : List (Finset α)}
    (hs : Schedules h requests caches) (cache : Finset α) :
    (requested requests \ cache).card ≤ loads cache caches := by
  induction hs generalizing cache with
  | nil => simp [loads]
  | @cons request next requests caches hnext _ ih =>
      have hsub : requested (request :: requests) \ cache
          ⊆ (next \ cache) ∪ (requested requests \ next) := by
        intro page hpage
        obtain ⟨hin, hnot⟩ := Finset.mem_sdiff.mp hpage
        rw [Finset.mem_union, Finset.mem_sdiff, Finset.mem_sdiff]
        by_cases hheld : page ∈ next
        · exact Or.inl ⟨hheld, hnot⟩
        · refine Or.inr ⟨?_, hheld⟩
          cases request with
          | none => exact hin
          | some other =>
              rw [requested_cons_some, Finset.mem_insert] at hin
              apply hin.resolve_left
              rintro rfl
              exact hheld (hnext.2 _ rfl)
      calc (requested (request :: requests) \ cache).card
          ≤ ((next \ cache) ∪ (requested requests \ next)).card := Finset.card_le_card hsub
        _ ≤ (next \ cache).card + (requested requests \ next).card := Finset.card_union_le _ _
        _ ≤ (next \ cache).card + loads next caches := Nat.add_le_add_left (ih next) _

/-! ## Orderly replacement -/

/-- The pages in memory are distinct and fit into it. -/
structure Fits (m : Nat) (resident : Resident α) : Prop where
  nodup : (resident.map Prod.fst).Nodup
  length_le : resident.length ≤ m

omit [DecidableEq α] in
theorem fits_nil (m : Nat) : Fits m ([] : Resident α) := ⟨List.nodup_nil, Nat.zero_le m⟩

/-- A hit keeps the pages, and behind any point of the list it adds at most the page that was hit
and takes none away. -/
structure Orderly (touch : Resident α → α × Nat → Resident α) : Prop where
  perm : ∀ {resident : Resident α} {e : α × Nat}, (resident.map Prod.fst).Nodup → e ∈ resident →
    (touch resident e).Perm resident
  recent : ∀ {resident : Resident α} {e : α × Nat} {kept : List α},
    (resident.map Prod.fst).Nodup → e ∈ resident → kept <:+ resident.map Prod.fst →
    ∃ kept', kept' <:+ (touch resident e).map Prod.fst ∧ kept' ⊆ e.1 :: kept ∧
      kept.length ≤ kept'.length

omit [DecidableEq α] in
theorem orderly_fifoTouch : Orderly (fifoTouch (α := α)) where
  perm := fun _ _ => List.Perm.refl _
  recent := fun {_ e kept} _ _ hkept => ⟨kept, hkept, List.subset_cons_self e.1 kept, le_rfl⟩

theorem lruTouch_pages {resident : Resident α} (hn : (resident.map Prod.fst).Nodup) (e : α × Nat) :
    (lruTouch resident e).map Prod.fst = (resident.map Prod.fst).erase e.1 ++ [e.1] := by
  rw [hn.erase_eq_filter]
  simp only [lruTouch, List.map_append, List.filter_map, List.map_singleton]
  congr 2
  apply List.filter_congr
  intro d _
  simp only [bne, Function.comp_apply, ne_eq, decide_not]
  rfl

theorem orderly_lruTouch : Orderly (lruTouch (α := α)) where
  perm := fun hn he => lruTouch_perm hn he
  recent := by
    intro resident e kept hn he hkept
    have hpage : e.1 ∈ resident.map Prod.fst := List.mem_map_of_mem he
    obtain ⟨older, hpages⟩ := hkept
    refine ⟨kept.erase e.1 ++ [e.1], ?_, ?_, ?_⟩
    · rw [lruTouch_pages hn, ← hpages]
      rw [← hpages] at hn hpage
      by_cases hin : e.1 ∈ older
      · -- the page comes from before the point
        have hnot : e.1 ∉ kept := fun h => List.disjoint_of_nodup_append hn hin h
        rw [List.erase_append_left _ hin, List.erase_of_not_mem hnot, List.append_assoc]
        exact List.suffix_append _ _
      · rw [List.erase_append_right _ hin, List.append_assoc]
        exact List.suffix_append _ _
    · intro page hin
      rcases List.mem_append.mp hin with h | h
      · exact List.mem_cons_of_mem _ (List.mem_of_mem_erase h)
      · rw [List.mem_singleton.mp h]
        exact List.mem_cons_self
    · have hle : kept.length - 1 ≤ (kept.erase e.1).length := List.le_length_erase
      rw [List.length_append, List.length_singleton]
      omega

/-! ## The pages that have been loaded last -/

/-- The answers that were faults. -/
def isFault : Option Served → Bool
  | some served => served.fault
  | none => false

/-- The number of faults. -/
def faults (answers : List (Option Served)) : Nat := answers.countP isFault

@[simp] theorem faults_cons_none (answers : List (Option Served)) :
    faults (none :: answers) = faults answers := rfl

theorem faults_cons_some (served : Served) (answers : List (Option Served)) :
    faults (some served :: answers) = faults answers + served.fault.toNat := by
  unfold faults
  rw [List.countP_cons]
  cases hfault : served.fault <;> simp [isFault, hfault]

theorem faults_append (first second : List (Option Served)) :
    faults (first ++ second) = faults first + faults second := List.countP_append

section Machine

variable {touch : Resident α → α × Nat → Resident α} {m : Nat} {resident : Resident α}

/-- **A reference**: a hit touches an entry; a fault puts the page behind the entries it keeps,
which are all of them or all but the first. -/
theorem access_cases (touch : Resident α → α × Nat → Resident α) (hm : 1 ≤ m)
    (h : Fits m resident) (page : α) :
    (∃ e ∈ resident, e.1 = page ∧
      access touch m resident page = (touch resident e, { fault := false, frame := e.2 })) ∨
    (page ∉ resident.map Prod.fst ∧ ∃ rest frame, rest <:+ resident ∧ rest.length < m ∧
      (rest.length < resident.length → rest.length + 1 = m) ∧
      access touch m resident page = (rest ++ [(page, frame)], { fault := true, frame := frame })) := by
  by_cases hmem : page ∈ resident.map Prod.fst
  · obtain ⟨⟨p, frame⟩, he, rfl⟩ := List.mem_map.mp hmem
    exact Or.inl ⟨(p, frame), he, rfl, access_hit h.nodup he⟩
  · have hmiss : ∀ frame, (page, frame) ∉ resident :=
      fun frame he => hmem (List.mem_map_of_mem (f := Prod.fst) he)
    refine Or.inr ⟨hmem, ?_⟩
    by_cases hlt : resident.length < m
    · exact ⟨resident, resident.length, List.suffix_refl _, hlt, fun h => absurd h (lt_irrefl _),
        access_miss hmiss hlt⟩
    · have hfull : resident.length = m := le_antisymm h.length_le (not_lt.mp hlt)
      obtain ⟨victim, rest, rfl⟩ := List.exists_cons_of_length_pos (by omega : 0 < resident.length)
      rw [List.length_cons] at hfull
      exact ⟨rest, victim.2, List.suffix_cons _ _, by omega, fun _ => hfull,
        access_evict hmiss (not_lt.mp hlt)⟩

theorem Fits.step (horderly : Orderly touch) (hm : 1 ≤ m) (h : Fits m resident) (page : α) :
    Fits m (access touch m resident page).1 := by
  rcases access_cases touch hm h page with
    ⟨e, he, -, heq⟩ | ⟨hmiss, rest, frame, hrest, hlt, -, heq⟩
  · have hperm := horderly.perm h.nodup he
    rw [heq]
    exact ⟨(hperm.map Prod.fst).nodup_iff.mpr h.nodup, hperm.length_eq.trans_le h.length_le⟩
  · rw [heq]
    refine ⟨?_, by simpa using hlt⟩
    have hsub : (rest.map Prod.fst).Sublist (resident.map Prod.fst) := hrest.sublist.map _
    rw [List.map_append, List.map_singleton, ← List.concat_eq_append]
    exact (h.nodup.sublist hsub).concat fun hin => hmiss (hsub.subset hin)

/-- `count` of the pages that have been seen are still in memory, behind all others; or there have
been more than `m` of them. -/
def Recorded (m : Nat) (seen : Finset α) (count : Nat) (pages : List α) : Prop :=
  m + 1 ≤ seen.card ∨ ∃ kept, kept <:+ pages ∧ kept.toFinset ⊆ seen ∧ count ≤ kept.length

/-- **The step**: a fault adds a page to those that are recorded, a hit leaves their number. -/
theorem Recorded.step (horderly : Orderly touch) (hm : 1 ≤ m) (h : Fits m resident) {page : α}
    {seen : Finset α} {count : Nat} (hr : Recorded m seen count (resident.map Prod.fst)) :
    Recorded m (insert page seen) (count + (access touch m resident page).2.fault.toNat)
      ((access touch m resident page).1.map Prod.fst) := by
  rcases hr with hmany | ⟨kept, hkept, hseen, hcount⟩
  · exact Or.inl (hmany.trans (Finset.card_le_card (Finset.subset_insert _ _)))
  rcases access_cases touch hm h page with
    ⟨e, he, rfl, heq⟩ | ⟨hmiss, rest, frame, hrest, hlt, hall, heq⟩
  · obtain ⟨kept', hkept', hsub, hlength⟩ := horderly.recent h.nodup he hkept
    rw [heq]
    refine Or.inr ⟨kept', hkept', ?_, hcount.trans hlength⟩
    intro page hpage
    rcases List.mem_cons.mp (hsub (List.mem_toFinset.mp hpage)) with rfl | hin
    · exact Finset.mem_insert_self _ _
    · exact Finset.mem_insert_of_mem (hseen (List.mem_toFinset.mpr hin))
  · rw [heq]
    have hmap : (rest.map Prod.fst) <:+ resident.map Prod.fst := hrest.map _
    by_cases hle : kept.length ≤ rest.length
    · -- the recorded pages are among those that stay
      have hin : kept <:+ rest.map Prod.fst :=
        List.suffix_of_suffix_length_le hkept hmap (by rwa [List.length_map])
      refine Or.inr ⟨kept ++ [page], ?_, ?_, ?_⟩
      · obtain ⟨older, hold⟩ := hin
        exact ⟨older, by simp [← hold]⟩
      · intro q hq
        rcases List.mem_append.mp (List.mem_toFinset.mp hq) with hold | hnew
        · exact Finset.mem_insert_of_mem (hseen (List.mem_toFinset.mpr hold))
        · rw [List.mem_singleton.mp hnew]
          exact Finset.mem_insert_self _ _
      · simpa using hcount
    · -- the victim is one of them, so the memory was full with pages that have been seen
      have hlast := hkept.length_le
      rw [List.length_map] at hlast
      have hm1 := hall (by omega)
      have hnew : page ∉ kept.toFinset := fun hin => hmiss (hkept.subset (List.mem_toFinset.mp hin))
      have hcard : kept.toFinset.card = kept.length :=
        List.toFinset_card_of_nodup (h.nodup.sublist hkept.sublist)
      refine Or.inl ?_
      calc m + 1 ≤ (insert page kept.toFinset).card := by
            rw [Finset.card_insert_of_notMem hnew]
            omega
        _ ≤ (insert page seen).card := Finset.card_le_card (Finset.insert_subset_insert _ hseen)

/-- **The run.** -/
theorem Recorded.run (horderly : Orderly touch) (hm : 1 ≤ m) (h : Fits m resident)
    {seen : Finset α} {count : Nat} (hr : Recorded m seen count (resident.map Prod.fst))
    (requests : List (Option α)) :
    Fits m (serve (access touch m) resident requests).1 ∧
      Recorded m (seen ∪ requested requests)
        (count + faults (serve (access touch m) resident requests).2)
        ((serve (access touch m) resident requests).1.map Prod.fst) := by
  induction requests generalizing resident seen count with
  | nil => simpa [serve, faults] using ⟨h, hr⟩
  | cons request requests ih =>
      cases request with
      | none => exact ih h hr
      | some page =>
          obtain ⟨hfits, hrec⟩ := ih (h.step horderly hm page) (hr.step horderly hm h)
          refine ⟨hfits, ?_⟩
          rw [requested_cons_some, Finset.union_insert, ← Finset.insert_union]
          simp only [serve, faults_cons_some]
          rwa [Nat.add_comm (faults _), ← Nat.add_assoc]

/-- So many different pages have been seen. -/
theorem Recorded.le_card (h : Fits m resident) {seen : Finset α} {count : Nat}
    (hr : Recorded m seen count (resident.map Prod.fst)) : min count (m + 1) ≤ seen.card := by
  rcases hr with hmany | ⟨kept, hkept, hseen, hcount⟩
  · exact (min_le_right _ _).trans hmany
  · have hcard : kept.toFinset.card = kept.length :=
      List.toFinset_card_of_nodup (h.nodup.sublist hkept.sublist)
    have := Finset.card_le_card hseen
    omega

theorem recorded_nil (m : Nat) (pages : List α) : Recorded m ∅ 0 pages :=
  Or.inr ⟨[], List.nil_suffix, Finset.empty_subset _, le_rfl⟩

/-! ## Cutting the requests at faults -/

/-- `page` was the last request, and a fault. -/
structure LoadedLast (requests : List (Option α)) (resident : Resident α) (page : α) : Prop where
  requested : requests.getLast? = some (some page)
  resident : [page] <:+ resident.map Prod.fst

/-- The requests up to the fault number `n`. -/
theorem exists_cut (horderly : Orderly touch) (hm : 1 ≤ m) (h : Fits m resident)
    {requests : List (Option α)} {n : Nat}
    (hn : n < faults (serve (access touch m) resident requests).2) :
    ∃ first rest page, requests = first ++ rest ∧
      faults (serve (access touch m) resident first).2 = n + 1 ∧
      LoadedLast first (serve (access touch m) resident first).1 page := by
  induction requests generalizing resident n with
  | nil => exact absurd hn (Nat.not_lt_zero n)
  | cons request requests ih =>
      cases request with
      | none =>
          obtain ⟨first, rest, page, rfl, hcount, hlast, hpage⟩ := ih h hn
          exact ⟨none :: first, rest, page, rfl, hcount, by simp [List.getLast?_cons, hlast], hpage⟩
      | some page =>
          -- a cut of the rest is a cut behind this request
          have hlater : ∀ n', n' < faults (serve (access touch m)
                (access touch m resident page).1 requests).2 →
              n' + (access touch m resident page).2.fault.toNat = n →
              ∃ first rest last, some page :: requests = first ++ rest ∧
                faults (serve (access touch m) resident first).2 = n + 1 ∧
                LoadedLast first (serve (access touch m) resident first).1 last := by
            intro n' hn' heq
            obtain ⟨first, rest, last, rfl, hcount, hlast, hpage⟩ :=
              ih (h.step horderly hm page) hn'
            refine ⟨some page :: first, rest, last, rfl, ?_, ?_, hpage⟩
            · simp only [serve, faults_cons_some]
              omega
            · simp [List.getLast?_cons, hlast]
          simp only [serve, faults_cons_some] at hn
          rcases access_cases touch hm h page with
            ⟨e, -, -, heq⟩ | ⟨-, kept, frame, -, -, -, heq⟩
          · rw [heq] at hn hlater
            exact hlater n hn rfl
          · cases n with
            | zero =>
                refine ⟨[some page], requests, page, rfl, ?_, rfl, ?_⟩
                · simp [serve, faults, isFault, heq]
                · simp only [serve, heq]
                  exact ⟨kept.map Prod.fst, by simp⟩
            | succ n =>
                rw [heq] at hn hlater
                exact hlater n (Nat.lt_of_succ_lt_succ hn) rfl

omit [DecidableEq α] in
theorem Schedules.append {k : Nat} {first rest : List (Option α)} {caches : List (Finset α)}
    (hs : Schedules k (first ++ rest) caches) :
    ∃ before after, caches = before ++ after ∧ Schedules k first before ∧
      Schedules k rest after := by
  induction first generalizing caches with
  | nil => exact ⟨[], caches, rfl, .nil, hs⟩
  | cons request first ih =>
      cases hs with
      | cons hnext hs =>
          obtain ⟨before, after, rfl, hfirst, hrest⟩ := ih hs
          exact ⟨_ :: before, after, rfl, .cons hnext hfirst, hrest⟩

omit [DecidableEq α] in
/-- What is held after the last request. -/
theorem Schedules.last {k : Nat} {requests : List (Option α)} {caches : List (Finset α)}
    (hs : Schedules k requests caches) {page : α} (hlast : requests.getLast? = some (some page))
    (cache : Finset α) :
    (caches.getLastD cache).card ≤ k ∧ page ∈ caches.getLastD cache := by
  induction hs generalizing cache with
  | nil => cases hlast
  | @cons request next requests caches hnext hs ih =>
      rw [List.getLastD_cons]
      cases hs with
      | nil =>
          rw [List.getLast?_singleton, Option.some_inj] at hlast
          exact ⟨hnext.1, hnext.2 page hlast⟩
      | cons hsecond hs =>
          rw [List.getLast?_cons_cons] at hlast
          exact ih hlast next

/-- From a fault on, the schedule loads `m + 1 - k` pages in every piece with `m` faults. -/
theorem loads_of_faults (horderly : Orderly touch) (hm : 1 ≤ m) {k n : Nat} (h : Fits m resident)
    {page : α} (hpage : [page] <:+ resident.map Prod.fst) {cache : Finset α} (hmem : page ∈ cache)
    (hcard : cache.card ≤ k) {requests : List (Option α)} {caches : List (Finset α)}
    (hs : Schedules k requests caches)
    (hn : n * m ≤ faults (serve (access touch m) resident requests).2) :
    n * (m + 1 - k) ≤ loads cache caches := by
  induction n generalizing resident page cache requests caches with
  | zero =>
      rw [Nat.zero_mul]
      exact Nat.zero_le _
  | succ n ih =>
      rw [Nat.succ_mul] at hn ⊢
      obtain ⟨first, rest, next, rfl, hcount, hlast, hnext⟩ :=
        exists_cut horderly hm h (n := m - 1) (lt_of_lt_of_le (by omega) hn)
      obtain ⟨before, after, rfl, hbefore, hafter⟩ := hs.append
      -- the piece: `page` and `m` pages more
      have hstart : Recorded m {page} 1 (resident.map Prod.fst) :=
        Or.inr ⟨[page], hpage, by simp, le_rfl⟩
      obtain ⟨hfits, hrec⟩ := hstart.run horderly hm h first
      have hseen := hrec.le_card hfits
      have hpiece : m + 1 - k ≤ loads cache before := by
        have hsub : ({page} ∪ requested first) \ cache ⊆ requested first \ cache := by
          intro q hq
          obtain ⟨hin, hnot⟩ := Finset.mem_sdiff.mp hq
          rcases Finset.mem_union.mp hin with h | h
          · exact absurd (Finset.mem_singleton.mp h ▸ hmem) hnot
          · exact Finset.mem_sdiff.mpr ⟨h, hnot⟩
        calc m + 1 - k ≤ ({page} ∪ requested first).card - cache.card := by omega
          _ ≤ (({page} ∪ requested first) \ cache).card := Finset.le_card_sdiff _ _
          _ ≤ (requested first \ cache).card := Finset.card_le_card hsub
          _ ≤ loads cache before := card_requested_le_loads hbefore cache
      -- the rest, from the fault at the end of the piece
      obtain ⟨hcard', hmem'⟩ := hbefore.last hlast cache
      rw [serve_append, faults_append] at hn
      have hrest := ih hfits hnext hmem' hcard' hafter (by omega)
      rw [loads_append]
      omega

/-- **Competitiveness.** With `m` frames, an orderly machine has at most `m / (m + 1 - k)` times as
many faults as any schedule with `k` frames has loads. -/
theorem faults_competitive (horderly : Orderly touch) (hm : 1 ≤ m) {k : Nat}
    {requests : List (Option α)} {caches : List (Finset α)} (hs : Schedules k requests caches) :
    (m + 1 - k) * faults (serve (access touch m) [] requests).2 ≤ m * loads ∅ caches := by
  generalize hf : faults (serve (access touch m) [] requests).2 = f
  cases f with
  | zero => exact Nat.zero_le _
  | succ f =>
      -- the first piece takes what the pieces of `m` faults leave over
      obtain ⟨first, rest, page, rfl, hcount, hlast, hpage⟩ :=
        exists_cut horderly hm (fits_nil m) (n := f % m)
          (by rw [hf]; exact Nat.lt_succ_of_le (Nat.mod_le f m))
      obtain ⟨before, after, rfl, hbefore, hafter⟩ := hs.append
      obtain ⟨hcard, hmem⟩ := hbefore.last hlast ∅
      obtain ⟨hfits, hrec⟩ := (recorded_nil m []).run horderly hm (fits_nil m) first
      have hfirst : f % m + 1 ≤ loads ∅ before := by
        have hseen := hrec.le_card hfits
        have hle := card_requested_le_loads hbefore ∅
        have hlt := Nat.mod_lt f hm
        rw [Finset.sdiff_empty] at hle
        rw [Finset.empty_union, hcount] at hseen
        omega
      rw [serve_append, faults_append, hcount] at hf
      have hdiv := Nat.div_add_mod' f m
      have hrest := loads_of_faults horderly hm hfits hpage hmem hcard hafter (n := f / m) (by omega)
      have hk : 1 ≤ k := (Finset.card_pos.mpr ⟨page, hmem⟩).trans_le hcard
      rw [loads_append]
      calc (m + 1 - k) * (f + 1)
          = (m + 1 - k) * (f % m + 1) + m * (f / m * (m + 1 - k)) := by
            conv_lhs => rw [← hdiv]
            ring
        _ ≤ m * loads ∅ before + m * loads (before.getLastD ∅) after := by
            apply Nat.add_le_add
            · exact Nat.mul_le_mul (by omega) hfirst
            · exact Nat.mul_le_mul_left m hrest
        _ = m * (loads ∅ before + loads (before.getLastD ∅) after) := by ring

/-! ## A machine as a schedule -/

/-- The pages in memory. -/
def pages (resident : Resident α) : Finset α := (resident.map Prod.fst).toFinset

/-- What a machine holds after each request. -/
def holds (access : Resident α → α → Resident α × Served) (resident : Resident α) :
    List (Option α) → List (Finset α)
  | [] => []
  | none :: requests => pages resident :: holds access resident requests
  | some page :: requests =>
    pages (access resident page).1 :: holds access (access resident page).1 requests

theorem Fits.card_pages_le (h : Fits m resident) : (pages resident).card ≤ m := by
  calc (pages resident).card ≤ (resident.map Prod.fst).length := List.toFinset_card_le _
    _ = resident.length := List.length_map _
    _ ≤ m := h.length_le

/-- One reference, as a step of a schedule: a page is loaded exactly in a fault. -/
theorem pages_access (horderly : Orderly touch) (hm : 1 ≤ m) (h : Fits m resident) (page : α) :
    page ∈ pages (access touch m resident page).1 ∧
      (pages (access touch m resident page).1 \ pages resident).card
        = (access touch m resident page).2.fault.toNat := by
  rcases access_cases touch hm h page with
    ⟨e, he, rfl, heq⟩ | ⟨hmiss, rest, frame, hrest, -, -, heq⟩
  · have hsame : pages (touch resident e) = pages resident :=
      List.toFinset_eq_of_perm _ _ ((horderly.perm h.nodup he).map _)
    rw [heq]
    refine ⟨?_, ?_⟩
    · rw [hsame]
      exact List.mem_toFinset.mpr (List.mem_map_of_mem he)
    · simp [hsame]
  · rw [heq]
    have hnext : pages (rest ++ [(page, frame)]) = insert page (pages rest) := by
      ext q
      simp only [pages, List.map_append, List.map_singleton, List.mem_toFinset, List.mem_append,
        List.mem_singleton, Finset.mem_insert]
      exact or_comm
    have hsub : pages rest ⊆ pages resident := by
      intro q hq
      exact List.mem_toFinset.mpr ((hrest.map _).subset (List.mem_toFinset.mp hq))
    have hnot : page ∉ pages resident := fun hin => hmiss (List.mem_toFinset.mp hin)
    have hloaded : insert page (pages rest) \ pages resident = {page} := by
      rw [Finset.insert_sdiff_of_notMem _ hnot, Finset.sdiff_eq_empty_iff_subset.mpr hsub]
      rfl
    rw [hnext]
    exact ⟨Finset.mem_insert_self _ _, by simp [hloaded]⟩

/-- **A machine is a schedule**, and its faults are what it loads. -/
theorem schedules_holds (horderly : Orderly touch) (hm : 1 ≤ m) (h : Fits m resident)
    (requests : List (Option α)) :
    Schedules m requests (holds (access touch m) resident requests) ∧
      loads (pages resident) (holds (access touch m) resident requests)
        = faults (serve (access touch m) resident requests).2 := by
  induction requests generalizing resident with
  | nil => exact ⟨.nil, rfl⟩
  | cons request requests ih =>
      cases request with
      | none =>
          obtain ⟨hs, hloads⟩ := ih h
          refine ⟨.cons ⟨h.card_pages_le, fun page hpage => by cases hpage⟩ hs, ?_⟩
          simp [holds, loads, serve, hloads]
      | some page =>
          have hnext := h.step horderly hm page
          obtain ⟨hmem, hcard⟩ := pages_access horderly hm h page
          obtain ⟨hs, hloads⟩ := ih hnext
          refine ⟨.cons ⟨hnext.card_pages_le, fun q hq => by cases hq; exact hmem⟩ hs, ?_⟩
          simp only [holds, loads, serve, faults_cons_some, hloads, hcard]
          exact Nat.add_comm _ _

end Machine

end Replacement
