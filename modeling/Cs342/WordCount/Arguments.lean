import Mathlib

/-!
# Command line of the word counters

What `parse_arguments` hands to the two programs. Its result is a value of `CommandLineArgs` only
if the file names fit the array that holds them.
-/

namespace Cs342.WordCount

/-- `MAX_IN_FILE_COUNT`. -/
def maxInFileCount : Nat := 8

/-- `valid_msg_sizes` of `parse_arguments`. -/
def validMsgSizes : List Nat := [128, 256, 512, 1024, 2048, 4096]

/-- `struct command_line_args` as `parse_arguments` returns it; `tword` leaves `msg_size` out. -/
structure CommandLineArgs where
  msgSize : Nat
  outFileName : String
  inFileNames : List String
  count_le : inFileNames.length ≤ maxInFileCount

/-- `in_file_count`. -/
def CommandLineArgs.inFileCount (cliArgs : CommandLineArgs) : Nat := cliArgs.inFileNames.length

end Cs342.WordCount
