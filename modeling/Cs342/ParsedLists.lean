import Mathlib
import Cs342.Library.Chain
import Cs342.Paging.Params
import Cs342.Cfs.Params

/-!
# The lists of the parsers (`params.c`, `workload_params.c`)

Regions, addresses and processes are read by three loops of one form: each record that is scanned
gets a node, which is linked to the node before it, the first one to a dummy node on the stack. The
link of the dummy node, which becomes the head of the list, is never initialised. So each list holds
exactly the records of the file if there are any, and is whatever the stack happens to hold if there
are none (`parsed_lists_iff`).
-/

open ByteBuffer (Bytes)

/-- The nodes from the head on are the records of the file, and a loop over them gets every record
once and ends. -/
structure ListsRecords {α : Type} (reader : Scanf.Reader α) (contents : Bytes) (chain : Chain α)
    (records : List α) : Prop where
  scanned : reader.Records contents records
  holds : chain.Holds records
  iterated : Loop.Appends (Walker.round chain.cells) Walker.out ⟨chain.dummyNext, []⟩ records

/-! ## A loop that gives each record a node -/

section Loops

variable {α : Type} {reader : Scanf.Reader α} {contents : Bytes}

/-- The loop, with the link of `dummy_node` at its start. -/
def chainRecords (reader : Scanf.Reader α) (contents : Bytes) (uninitialised : Option Nat) :
    Outcome (Chain α) :=
  reader.forEach (fun chain record => .ok (chain.append record)) contents
    (Chain.start uninitialised)

theorem foldlM_append (chain : Chain α) (records : List α) :
    records.foldlM (fun chain record => Outcome.ok (chain.append record)) chain
      = .ok (records.foldl Chain.append chain) := by
  induction records generalizing chain with
  | nil => rfl
  | cons record records ih => rw [List.foldlM_cons, Outcome.ok_bind, ih, List.foldl_cons]

theorem chainRecords_eq_ok {uninitialised : Option Nat} {chain : Chain α} :
    chainRecords reader contents uninitialised = .ok chain ↔
      ∃ records, reader.Records contents records ∧
        records.foldl Chain.append (Chain.start uninitialised) = chain := by
  simp only [chainRecords, Scanf.Reader.forEach_eq_ok, foldlM_append, Outcome.ok.injEq]

theorem listsRecords_foldl_iff {records : List α} (h : reader.Records contents records) :
    (∀ uninitialised, ListsRecords reader contents
        (records.foldl Chain.append (Chain.start uninitialised)) records) ↔ records ≠ [] := by
  rw [← Chain.holds_foldl_iff]
  constructor
  · exact fun hlists uninitialised => (hlists uninitialised).holds
  · intro hholds uninitialised
    exact ⟨h, hholds uninitialised, Walker.appends_iff.mpr (hholds uninitialised).1⟩

/-- **Lists and records**: the list is right, whatever was on the stack, exactly if all scans are
defined and the first one gives a record. -/
theorem chainRecords_lists_iff :
    (∀ uninitialised, ∃ chain records, chainRecords reader contents uninitialised = .ok chain ∧
        ListsRecords reader contents chain records) ↔
      ∃ records, reader.Records contents records ∧ records ≠ [] := by
  constructor
  · intro h
    obtain ⟨_, records, -, hlists⟩ := h none
    refine ⟨records, hlists.scanned, (listsRecords_foldl_iff hlists.scanned).mp ?_⟩
    intro uninitialised
    obtain ⟨chain, records', hchain, hlists'⟩ := h uninitialised
    obtain ⟨found, hfound, rfl⟩ := chainRecords_eq_ok.mp hchain
    rw [hlists.scanned.unique hfound]
    rw [hlists'.scanned.unique hfound] at hlists'
    exact hlists'
  · rintro ⟨records, hrecords, hne⟩ uninitialised
    exact ⟨_, records, chainRecords_eq_ok.mpr ⟨records, hrecords, rfl⟩,
      (listsRecords_foldl_iff hrecords).mpr hne uninitialised⟩

end Loops

/-! ## Regions and addresses -/

namespace Cs342.Paging

/-- `parse_input_virtual_regions`, from the open file to `param_store->virtual_regions`. -/
def chainInputVirtualRegions (contents : Bytes) (uninitialised : Option Nat) :
    Outcome (Chain VirtualRegion) :=
  chainRecords regionReader contents uninitialised

/-- `parse_input_virtual_addresses`, which counts the addresses. -/
def chainInputVirtualAddresses (contents : Bytes) (uninitialised : Option Nat) :
    Outcome (Chain (BitVec 32) × Int) :=
  addressReader.forEach (fun (s : Chain (BitVec 32) × Int) address => do
    let totalAddresses ← Scanf.toInt (s.2 + 1)
    return (s.1.append address, totalAddresses)) contents (Chain.start uninitialised, 0)

/-- The loop counts as long as the count is an int. -/
theorem foldlM_count (records : List (BitVec 32)) (chain : Chain (BitVec 32)) {total : Int}
    (hmin : 0 ≤ total) (hmax : total < 2 ^ 31) :
    records.foldlM (fun (s : Chain (BitVec 32) × Int) address => do
        let totalAddresses ← Scanf.toInt (s.2 + 1)
        return (s.1.append address, totalAddresses)) (chain, total)
      = if total + records.length < 2 ^ 31
        then .ok (records.foldl Chain.append chain, total + records.length) else .undefined := by
  induction records generalizing chain total with
  | nil =>
      rw [List.foldlM_nil, List.foldl_nil, List.length_nil, Nat.cast_zero, add_zero, if_pos hmax]
      rfl
  | cons address records ih =>
      rw [List.foldlM_cons, List.foldl_cons, List.length_cons, Nat.cast_succ]
      by_cases hlt : total + 1 < 2 ^ 31
      · rw [Scanf.toInt, if_pos ⟨by omega, hlt⟩, Outcome.ok_bind, Outcome.pure_eq, Outcome.ok_bind,
          ih _ (by omega) hlt, add_assoc, add_comm (1 : Int)]
      · rw [Scanf.toInt, if_neg (by omega), if_neg (by omega)]
        rfl

theorem chainInputVirtualAddresses_eq_ok {contents : Bytes} {uninitialised : Option Nat}
    {chain : Chain (BitVec 32)} {total : Int} :
    chainInputVirtualAddresses contents uninitialised = .ok (chain, total) ↔
      ∃ records, addressReader.Records contents records ∧ (records.length : Int) < 2 ^ 31 ∧
        records.foldl Chain.append (Chain.start uninitialised) = chain ∧
        (records.length : Int) = total := by
  rw [chainInputVirtualAddresses, Scanf.Reader.forEach_eq_ok]
  refine exists_congr fun records => and_congr_right fun _ => ?_
  rw [foldlM_count records _ le_rfl (by norm_num), zero_add]
  split
  · next hlt => simp only [Outcome.ok.injEq, Prod.mk.injEq, hlt, true_and]
  · next hge => simp only [reduceCtorEq, hge, false_and]

end Cs342.Paging

/-! ## Processes -/

namespace Cs342.Cfs

/-- The loop over the workload file. -/
def processReader : Scanf.Reader ProcessParams where
  read := scanProcess
  length_lt := scanProcess_length

/-- The loop of `parse_file_arguments`, from the open file to `file_params->processes`. -/
def chainFileProcesses (contents : Bytes) (uninitialised : Option Nat) :
    Outcome (Chain ProcessParams) :=
  chainRecords processReader contents uninitialised

/-- The nodes that the loop has put behind those it had are the records. -/
theorem parseProcesses_eq_ok {stream : Bytes} {nodes list : List ProcessParams} :
    parseProcesses stream nodes = .ok list ↔
      ∃ records, processReader.Records stream records ∧ list = nodes ++ records := by
  constructor
  · fun_induction parseProcesses stream nodes with
    | case1 stream nodes process rest hread ih =>
        intro h
        obtain ⟨records, hrecords, rfl⟩ := ih h
        exact ⟨process :: records, .next hread hrecords, by simp⟩
    | case2 stream nodes rest hread =>
        rintro ⟨⟩
        exact ⟨[], .last hread, by simp⟩
    | case3 => rintro ⟨⟩
    | case4 => rintro ⟨⟩
  · rintro ⟨records, hrecords, rfl⟩
    induction hrecords generalizing nodes with
    | last hread => rw [parseProcesses_none hread, List.append_nil]
    | next hread _ ih =>
        rw [parseProcesses_some hread, ih, List.append_assoc, List.singleton_append]

end Cs342.Cfs

/-! ## The three lists -/

namespace Cs342

open Paging Cfs

/-- The lists that the other modules speak of are those of the nodes. -/
theorem lists_of_parsed {contents : Bytes} (uninitialised : Option Nat) :
    (∀ regions, regionReader.readAll contents [] = .ok regions → regions ≠ [] →
      ∃ chain, chainInputVirtualRegions contents uninitialised = .ok chain ∧
        chain.Holds regions) ∧
    (∀ processes, parseProcesses contents [] = .ok processes → processes ≠ [] →
      ∃ chain, chainFileProcesses contents uninitialised = .ok chain ∧ chain.Holds processes) := by
  constructor
  · intro regions hread hne
    have hrecords := Scanf.Reader.readAll_eq_ok.mp hread
    exact ⟨_, chainRecords_eq_ok.mpr ⟨regions, hrecords, rfl⟩,
      (Chain.holds_foldl_iff regions).mpr hne uninitialised⟩
  · intro processes hparse hne
    obtain ⟨records, hrecords, heq⟩ := parseProcesses_eq_ok.mp hparse
    rw [List.nil_append] at heq
    rw [heq] at hne ⊢
    exact ⟨_, chainRecords_eq_ok.mpr ⟨records, hrecords, rfl⟩,
      (Chain.holds_foldl_iff records).mpr hne uninitialised⟩

/-- **Parsed lists.** Whatever is on the stack, the lists of regions, of addresses (with their
count) and of processes hold exactly the records of a file if and only if all scans of the file are
defined, the first one gives a record, and the number of addresses is an int. -/
theorem parsed_lists_iff (contents : Bytes) :
    ((∀ uninitialised, ∃ chain regions,
        chainInputVirtualRegions contents uninitialised = .ok chain ∧
          ListsRecords regionReader contents chain regions) ↔
      ∃ regions, regionReader.Records contents regions ∧ regions ≠ []) ∧
    ((∀ uninitialised, ∃ chain totalAddresses addresses,
        chainInputVirtualAddresses contents uninitialised = .ok (chain, totalAddresses) ∧
          ListsRecords addressReader contents chain addresses ∧
          totalAddresses = addresses.length) ↔
      ∃ addresses, addressReader.Records contents addresses ∧ addresses ≠ [] ∧
        (addresses.length : Int) < 2 ^ 31) ∧
    ((∀ uninitialised, ∃ chain processes,
        chainFileProcesses contents uninitialised = .ok chain ∧
          ListsRecords processReader contents chain processes) ↔
      ∃ processes, processReader.Records contents processes ∧ processes ≠ []) := by
  refine ⟨chainRecords_lists_iff, ?_, chainRecords_lists_iff⟩
  constructor
  · intro h
    obtain ⟨_, _, addresses, hchain, hlists, -⟩ := h none
    obtain ⟨found, hfound, hlt, -, -⟩ := chainInputVirtualAddresses_eq_ok.mp hchain
    refine ⟨addresses, hlists.scanned, ?_, hlists.scanned.unique hfound ▸ hlt⟩
    refine (listsRecords_foldl_iff hlists.scanned).mp fun uninitialised => ?_
    obtain ⟨chain, total, addresses', hchain', hlists', -⟩ := h uninitialised
    obtain ⟨found', hfound', -, rfl, -⟩ := chainInputVirtualAddresses_eq_ok.mp hchain'
    rw [hlists.scanned.unique hfound']
    rw [hlists'.scanned.unique hfound'] at hlists'
    exact hlists'
  · rintro ⟨addresses, hrecords, hne, hlt⟩ uninitialised
    exact ⟨_, _, addresses,
      chainInputVirtualAddresses_eq_ok.mpr ⟨addresses, hrecords, hlt, rfl, rfl⟩,
      (listsRecords_foldl_iff hrecords).mpr hne uninitialised, rfl⟩

/-- An empty file has no records, and none of the three lists is set. -/
theorem parsed_lists_empty :
    (¬ ∀ uninitialised, ∃ chain regions, chainInputVirtualRegions [] uninitialised = .ok chain ∧
      ListsRecords regionReader [] chain regions) ∧
    (¬ ∀ uninitialised, ∃ chain totalAddresses addresses,
      chainInputVirtualAddresses [] uninitialised = .ok (chain, totalAddresses) ∧
        ListsRecords addressReader [] chain addresses ∧ totalAddresses = addresses.length) ∧
    (¬ ∀ uninitialised, ∃ chain processes, chainFileProcesses [] uninitialised = .ok chain ∧
      ListsRecords processReader [] chain processes) := by
  have hregion : regionReader.read [] = .ok (none, []) := by decide
  have haddress : addressReader.read [] = .ok (none, []) := by decide
  have hprocess : processReader.read [] = .ok (none, []) := by decide
  have hregions := Scanf.Reader.Records.last hregion
  have haddresses := Scanf.Reader.Records.last haddress
  have hprocesses := Scanf.Reader.Records.last hprocess
  refine ⟨fun h => ?_, fun h => ?_, fun h => ?_⟩
  · obtain ⟨regions, hrecords, hne⟩ := chainRecords_lists_iff.mp h
    exact hne (hrecords.unique hregions)
  · obtain ⟨chain, total, addresses, hchain, hlists, -⟩ := h (some 0)
    obtain ⟨found, hfound, -, rfl, -⟩ := chainInputVirtualAddresses_eq_ok.mp hchain
    have hholds := hlists.holds
    rw [hlists.scanned.unique haddresses, hfound.unique haddresses] at hholds
    cases (Chain.built_start.holds_nil).mp hholds
  · obtain ⟨processes, hrecords, hne⟩ := chainRecords_lists_iff.mp h
    exact hne (hrecords.unique hprocesses)

end Cs342
