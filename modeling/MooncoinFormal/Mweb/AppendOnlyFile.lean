import Mathlib
import MooncoinFormal.Library.Simulation

/-!
# The append-only file

`mw/file/AppendOnlyFile.h` with the parts of `File` and `MemMap` that it uses. The
contents are split between a mapped file and a buffer that begins at some index of it;
`Commit` copies the file, writes the buffer to the copy and maps the copy. The stream of
`File::Write` is opened with `std::ios::app`, so that it writes at the end of the file
wherever `seekp` put it.

The file is meant to be a vector that is appended to, cut off, and committed or rolled
back as a whole. It is one as long as no read crosses the index of the buffer, nothing is
cut off twice before a commit, and what is appended after the file was cut off repeats the
bytes that were cut off.
-/

namespace MooncoinFormal.Mweb

open Library.Checks Library.Simulation List Except

variable {Path Byte : Type}

/-- An exception with its message, a failed assertion, or a read outside the map. -/
inductive FileError where
  | exception (message : String)
  | assertion
  | outsideMap
  deriving DecidableEq

abbrev FileSystem (Path Byte : Type) := Path → Option (List Byte)

variable (files : FileSystem Path Byte)

namespace FileSystem

variable [DecidableEq Path]

def set (path : Path) (bytes : List Byte) : FileSystem Path Byte :=
  fun other => if other = path then some bytes else files other

/-- `File::CopyTo`: a file at the new path is removed before the copy. -/
def copyTo (path newPath : Path) : Except FileError (FileSystem Path Byte) :=
  match (fun other => if other = newPath then none else files other :
      FileSystem Path Byte) path with
  | none => .error (.exception "Failed to copy \x7b\x7d to \x7b\x7d")
  | some bytes => .ok (files.set newPath bytes)

/-- `File::Write` at an index, then cutting the file off behind what was written. -/
def write (path : Path) (startIndex : Nat) (bytes : List Byte) : FileSystem Path Byte :=
  -- opened for appending: the index only counts for where the file is cut off
  let written := (files path).getD [] ++ bytes
  files.set path (written.take (startIndex + bytes.length))

end FileSystem

structure AppendOnlyFile (Path Byte : Type) where
  path : Path
  /-- `m_mmap`; an empty file is not mapped. -/
  mmap : Option (List Byte)
  fileSize : Nat
  bufferIndex : Nat
  buffer : List Byte

/-- `MemMap::Map`. -/
def memMap (bytes : List Byte) : Option (List Byte) := if bytes = [] then none else some bytes

variable (file : AppendOnlyFile Path Byte)

namespace AppendOnlyFile

/-- `Load`, which creates a file that is missing. -/
def load [DecidableEq Path] (path : Path) : FileSystem Path Byte × AppendOnlyFile Path Byte :=
  let bytes := (files path).getD []
  (files.set path bytes, ⟨path, memMap bytes, bytes.length, bytes.length, []⟩)

def append (data : List Byte) : AppendOnlyFile Path Byte :=
  { file with buffer := file.buffer ++ data }

variable (file : AppendOnlyFile Path Byte)

def rewind (nextPosition : Nat) : Except FileError (AppendOnlyFile Path Byte) := do
  ensure (file.fileSize = file.bufferIndex) .assertion
  ensure (nextPosition ≤ file.bufferIndex + file.buffer.length)
    (.exception "Tried to rewind past end of \x7b\x7d")
  if nextPosition ≤ file.bufferIndex then
    .ok { file with buffer := [], bufferIndex := nextPosition }
  else .ok { file with buffer := file.buffer.take (nextPosition - file.bufferIndex) }

def rollback : AppendOnlyFile Path Byte :=
  { file with bufferIndex := file.fileSize, buffer := [] }

def getSize : Nat := file.bufferIndex + file.buffer.length

/-- `MemMap::Read`. -/
def readMap (mmap : Option (List Byte)) (position numBytes : Nat) : Except FileError (List Byte) :=
  match mmap with
  | none => .error .assertion
  | some bytes =>
    if position + numBytes ≤ bytes.length then .ok ((bytes.drop position).take numBytes)
    else .error .outsideMap

def read (position numBytes : Nat) : Except FileError (List Byte) := do
  ensure (position + numBytes ≤ file.bufferIndex + file.buffer.length)
    (.exception "Tried to read past end of \x7b\x7d")
  if position < file.bufferIndex then readMap file.mmap position numBytes
  else .ok ((file.buffer.drop (position - file.bufferIndex)).take numBytes)

/-- The copy, with the buffer written to it if there is anything to write or cut off. -/
def commitWrite [DecidableEq Path] (newPath : Path) : FileSystem Path Byte :=
  if file.fileSize ≠ file.bufferIndex ∨ file.buffer ≠ [] then
    files.write newPath file.bufferIndex file.buffer
  else files

def commit [DecidableEq Path] (newPath : Path) :
    Except FileError (FileSystem Path Byte × AppendOnlyFile Path Byte) := do
  ensure (file.bufferIndex ≤ file.fileSize)
    (.exception "Buffer index is past the end of \x7b\x7d")
  let files ← files.copyTo file.path newPath
  let files := file.commitWrite files newPath
  let bytes := (files newPath).getD []
  let fileSize := if file.fileSize ≠ file.bufferIndex ∨ file.buffer ≠ [] then bytes.length
    else file.fileSize
  .ok (files, ⟨newPath, memMap bytes, fileSize, fileSize, []⟩)

end AppendOnlyFile

open AppendOnlyFile

/-! ## Runs of operations -/

inductive FileOperation (Path Byte : Type) where
  | append (data : List Byte)
  | rewind (nextPosition : Nat)
  | commit (newPath : Path)
  | rollback
  | getSize
  | read (position numBytes : Nat)

/-- What an operation shows: nothing, a size, or bytes. After a commit these are the
bytes of the new file. -/
inductive FileAnswer (Byte : Type) where
  | done
  | size (numBytes : Nat)
  | bytes (data : List Byte)

def fileStep [DecidableEq Path] :
    FileSystem Path Byte × AppendOnlyFile Path Byte → FileOperation Path Byte →
    Except FileError (FileAnswer Byte × (FileSystem Path Byte × AppendOnlyFile Path Byte))
  | (files, file), .append data => .ok (.done, files, file.append data)
  | (files, file), .rewind nextPosition => do
      let file ← file.rewind nextPosition
      .ok (.done, files, file)
  | (files, file), .commit newPath => do
      let (files, file) ← file.commit files newPath
      .ok (.bytes ((files newPath).getD []), files, file)
  | (files, file), .rollback => .ok (.done, files, file.rollback)
  | (files, file), .getSize => .ok (.size file.getSize, files, file)
  | (files, file), .read position numBytes => do
      let data ← file.read position numBytes
      .ok (.bytes data, files, file)

/-- A plain vector, with what it was at the last commit. -/
structure ByteVector (Byte : Type) where
  committed : List Byte
  current : List Byte

namespace ByteVector

def step : ByteVector Byte → FileOperation Path Byte → FileAnswer Byte × ByteVector Byte
  | vector, .append data => (.done, { vector with current := vector.current ++ data })
  | vector, .rewind nextPosition =>
    (.done, { vector with current := vector.current.take nextPosition })
  | vector, .commit _ => (.bytes vector.current, ⟨vector.current, vector.current⟩)
  | vector, .rollback => (.done, ⟨vector.committed, vector.committed⟩)
  | vector, .getSize => (.size vector.current.length, vector)
  | vector, .read position numBytes =>
    (.bytes ((vector.current.drop position).take numBytes), vector)

/-- A vector is cut off at an index it has, and read in its range. -/
def InRange (vector : ByteVector Byte) : FileOperation Path Byte → Prop
  | .rewind nextPosition => nextPosition ≤ vector.current.length
  | .read position numBytes => position + numBytes ≤ vector.current.length
  | _ => True

end ByteVector

open ByteVector

/-- The bytes of the file behind the index of the buffer. -/
def AppendOnlyFile.cutOff : List Byte :=
  (file.mmap.getD []).drop file.bufferIndex

/-- What a commit makes of the bytes of the file. -/
def AppendOnlyFile.committedBytes (committed : List Byte) : List Byte :=
  (committed ++ file.buffer).take (file.bufferIndex + file.buffer.length)

/-- When an operation works: nothing is cut off twice, a commit goes to another file and
the buffer begins like what it replaces, and a read from the file does not go on into a
buffer that differs from it. -/
def FileOperation.Works (state : FileSystem Path Byte × AppendOnlyFile Path Byte) :
    FileOperation Path Byte → Prop
  | .rewind _ => state.2.bufferIndex = state.2.fileSize
  | .commit newPath => newPath ≠ state.2.path ∧ state.2.buffer <+: state.2.cutOff ++ state.2.buffer
  | .read position numBytes => state.2.bufferIndex ≤ position ∨
      state.2.buffer.take (position + numBytes - state.2.bufferIndex) <+: state.2.cutOff
  | _ => True

/-- The vector that a file stands for. -/
structure HoldsVector (vector : ByteVector Byte) : Prop where
  stored : files file.path = some vector.committed
  mmap : file.mmap = memMap vector.committed
  fileSize : file.fileSize = vector.committed.length
  bufferIndex : file.bufferIndex ≤ vector.committed.length
  current : vector.current = vector.committed.take file.bufferIndex ++ file.buffer

theorem memMap_getD (bytes : List Byte) : (memMap bytes).getD [] = bytes := by
  unfold memMap
  split
  · rename_i empty
    rw [empty]
    rfl
  · rfl

variable {newPath : Path}

namespace HoldsVector

variable {files : FileSystem Path Byte} {file : AppendOnlyFile Path Byte} {vector : ByteVector Byte}

section

variable (holds : HoldsVector files file vector)
include holds

theorem cutOff : file.cutOff = vector.committed.drop file.bufferIndex := by
  rw [AppendOnlyFile.cutOff, holds.mmap, memMap_getD]

theorem length_kept : (vector.committed.take file.bufferIndex).length = file.bufferIndex := by
  rw [length_take, Nat.min_eq_left holds.bufferIndex]

theorem getSize : file.getSize = vector.current.length := by
  rw [holds.current, length_append, holds.length_kept]
  rfl

/-- Cutting off works once, and cuts the vector off. -/
theorem rewind {nextPosition : Nat} (inRange : nextPosition ≤ vector.current.length) :
    ((∃ next, file.rewind nextPosition = .ok next) ↔ file.bufferIndex = file.fileSize) ∧
      ∀ next, file.rewind nextPosition = .ok next →
        HoldsVector files next { vector with current := vector.current.take nextPosition } := by
  have inside : nextPosition ≤ file.bufferIndex + file.buffer.length := by
    rw [← holds.getSize] at inRange
    exact inRange
  have bound := holds.bufferIndex
  simp only [AppendOnlyFile.rewind, bind_eq_ok, ensure_eq_ok, exists_const, inside, true_and]
  refine ⟨⟨by rintro ⟨_, same, _⟩; exact same.symm, fun same => ?_⟩, ?_⟩
  · split <;> exact ⟨_, same.symm, rfl⟩
  · rintro next ⟨-, done⟩
    split at done
    · rename_i below
      cases done
      refine { holds with bufferIndex := Nat.le_trans below bound, current := ?_ }
      rw [holds.current, take_append_of_le_length (by simp; omega), take_take,
        Nat.min_eq_left below, append_nil]
    · rename_i above
      cases done
      refine { holds with current := ?_ }
      rw [holds.current, take_append, holds.length_kept, take_take, Nat.min_eq_right (by omega)]

theorem committedBytes_eq_current :
    file.committedBytes vector.committed = vector.current ↔
      file.buffer <+: file.cutOff ++ file.buffer := by
  have length := holds.length_kept
  have split : vector.committed ++ file.buffer =
      vector.committed.take file.bufferIndex ++ (file.cutOff ++ file.buffer) := by
    rw [holds.cutOff, ← append_assoc, take_append_drop]
  have bytes : file.committedBytes vector.committed =
      vector.committed.take file.bufferIndex ++
        (file.cutOff ++ file.buffer).take file.buffer.length := by
    rw [committedBytes, split, take_append, length, Nat.add_sub_cancel_left,
      take_of_length_le (by omega)]
  rw [bytes, holds.current, append_cancel_left_eq, prefix_iff_eq_take, eq_comm]

end

section Directory

variable [DecidableEq Path]

variable (holds : HoldsVector files file vector)
include holds

theorem commitWrite_apply :
    file.commitWrite (files.set newPath vector.committed) newPath newPath =
      some (file.committedBytes vector.committed) := by
  unfold commitWrite
  split
  · simp [FileSystem.write, FileSystem.set, committedBytes]
  · rename_i unchanged
    rw [not_or, not_not, not_not, holds.fileSize] at unchanged
    simp [FileSystem.set, committedBytes, unchanged.2, ← unchanged.1]

/-- A commit succeeds when it goes to another path, and shows what it made of the bytes. -/
theorem commit {files' : FileSystem Path Byte} {next : AppendOnlyFile Path Byte} :
    file.commit files newPath = .ok (files', next) ↔
      newPath ≠ file.path ∧
        files' = file.commitWrite (files.set newPath vector.committed) newPath ∧
        next = ⟨newPath, memMap (file.committedBytes vector.committed),
          (file.committedBytes vector.committed).length,
          (file.committedBytes vector.committed).length, []⟩ := by
  have bound : file.bufferIndex ≤ file.fileSize := holds.fileSize ▸ holds.bufferIndex
  by_cases own : newPath = file.path
  · simp [AppendOnlyFile.commit, FileSystem.copyTo, own]
  have copied : files.copyTo file.path newPath = .ok (files.set newPath vector.committed) := by
    simp [FileSystem.copyTo, Ne.symm own, holds.stored]
  have size : (if file.fileSize ≠ file.bufferIndex ∨ file.buffer ≠ [] then
      (file.committedBytes vector.committed).length else file.fileSize) =
        (file.committedBytes vector.committed).length := by
    split
    · rfl
    · rename_i unchanged
      rw [not_or, not_not, not_not] at unchanged
      simp [AppendOnlyFile.committedBytes, unchanged.2, ← unchanged.1, holds.fileSize]
  simp only [AppendOnlyFile.commit, bind_eq_ok, ensure_eq_ok, bound, copied, ok.injEq,
    Prod.mk.injEq, exists_const, true_and, exists_eq_left', holds.commitWrite_apply,
      Option.getD_some, size, ne_eq, own,
    not_false_eq_true]
  exact and_congr eq_comm eq_comm

end Directory

/-- An in-range read shows the vector when it stays in the buffer, or when the buffer goes
on like the file. -/
theorem read (holds : HoldsVector files file vector) {position numBytes : Nat}
    (inRange : position + numBytes ≤ vector.current.length) :
    file.read position numBytes = .ok ((vector.current.drop position).take numBytes) ↔
      file.bufferIndex ≤ position ∨
        file.buffer.take (position + numBytes - file.bufferIndex) <+: file.cutOff := by
  have bound := holds.bufferIndex
  have inside : position + numBytes ≤ file.bufferIndex + file.buffer.length := by
    rw [← holds.getSize] at inRange
    exact inRange
  have length := holds.length_kept
  by_cases buffered : file.bufferIndex ≤ position
  · have outside : ¬ position < file.bufferIndex := by omega
    simp only [AppendOnlyFile.read, ensure, inside, if_true, outside, if_false, buffered, true_or,
      iff_true]
    show ok _ = _
    have before : (vector.committed.take file.bufferIndex).length ≤ position := by omega
    rw [holds.current, drop_append, length, drop_of_length_le before, nil_append]
  · have mapped : file.mmap = some vector.committed := by
      rw [holds.mmap, memMap, if_neg]
      intro empty
      rw [empty, length_nil] at bound
      omega
    -- What is read goes from the committed bytes into the bytes after them.
    have across : ∀ tail, ((vector.committed.take file.bufferIndex ++ tail).drop
      position).take numBytes =
        ((vector.committed.take file.bufferIndex).drop position).take numBytes ++
          tail.take (position + numBytes - file.bufferIndex) := by
      intro tail
      rw [drop_append_of_le_length (by omega), take_append, length_drop, length,
        show numBytes - (file.bufferIndex - position) = position + numBytes -
          file.bufferIndex by omega]
    have shown := across file.buffer
    rw [← holds.current] at shown
    have stored := across file.cutOff
    nth_rewrite 1 [holds.cutOff] at stored
    rw [take_append_drop] at stored
    have taken : (file.buffer.take (position + numBytes - file.bufferIndex)).length =
        position + numBytes - file.bufferIndex := by
      rw [length_take, Nat.min_eq_left (by omega)]
    have size : file.cutOff.length = vector.committed.length - file.bufferIndex := by
      rw [holds.cutOff, length_drop]
    simp only [AppendOnlyFile.read, ensure, inside, if_true,
      show position < file.bufferIndex by omega, mapped, AppendOnlyFile.readMap, buffered, false_or]
    show (if _ then ok _ else _) = _ ↔ _
    split
    · rw [ok.injEq, stored, shown, append_cancel_left_eq, prefix_iff_eq_take, taken, eq_comm]
    · simp only [reduceCtorEq, false_iff]
      intro begins
      have short := begins.length_le
      omega

end HoldsVector

theorem load_holds [DecidableEq Path] (files : FileSystem Path Byte) (path : Path) :
    HoldsVector (load files path).1 (load files path).2
      ⟨(files path).getD [], (files path).getD []⟩ := by
  refine ⟨if_pos rfl, rfl, rfl, Nat.le_refl _, ?_⟩
  show _ = take (length _) _ ++ []
  rw [take_length, append_nil]

/-! ## Steps and runs -/

section Steps

variable [DecidableEq Path] {state next : FileSystem Path Byte × AppendOnlyFile Path Byte}
  {vector : ByteVector Byte} {operation : FileOperation Path Byte}

section

variable (holds : HoldsVector state.1 state.2 vector) (inRange : vector.InRange operation)
include holds inRange

theorem fileStep_answers :
    (∃ next, fileStep state operation = .ok ((vector.step operation).1, next)) ↔
      operation.Works state := by
  cases operation with
  | append data => exact ⟨fun _ => trivial, fun _ => ⟨_, rfl⟩⟩
  | rollback => exact ⟨fun _ => trivial, fun _ => ⟨_, rfl⟩⟩
  | getSize => exact ⟨fun _ => trivial, fun _ => ⟨_, by rw [fileStep, holds.getSize]; rfl⟩⟩
  | rewind nextPosition =>
    rw [FileOperation.Works, ← (holds.rewind inRange).1]
    simp [fileStep, step]
  | commit newPath =>
    rw [FileOperation.Works, ← holds.committedBytes_eq_current]
    simp only [fileStep, step, bind_eq_ok, Prod.exists, holds.commit, ok.injEq,
      Prod.mk.injEq, FileAnswer.bytes.injEq]
    constructor
    · rintro ⟨_, _, _, _, ⟨other, rfl, rfl⟩, same, -, -⟩
      rw [holds.commitWrite_apply] at same
      exact ⟨other, same⟩
    · rintro ⟨other, same⟩
      refine ⟨_, _, _, _, ⟨other, rfl, rfl⟩, ?_, rfl, rfl⟩
      rw [holds.commitWrite_apply]
      exact same
  | read position numBytes =>
    rw [FileOperation.Works, ← holds.read inRange]
    simp [fileStep, step]

theorem fileStep_holds
    (stepped : fileStep state operation = .ok ((vector.step operation).1, next)) :
    HoldsVector next.1 next.2 (vector.step operation).2 := by
  obtain ⟨files, file⟩ := state
  cases operation with
  | append data =>
    cases stepped
    refine { holds with current := ?_ }
    show vector.current ++ data = take file.bufferIndex vector.committed ++ (file.buffer ++ data)
    rw [holds.current, append_assoc]
  | rollback =>
    cases stepped
    refine { holds with bufferIndex := Nat.le_of_eq holds.fileSize, current := ?_ }
    show vector.committed = take file.fileSize vector.committed ++ []
    rw [holds.fileSize, take_length, append_nil]
  | getSize =>
    rw [fileStep, holds.getSize] at stepped
    cases stepped
    exact holds
  | rewind nextPosition =>
    simp only [fileStep, bind_eq_ok, ok.injEq, Prod.mk.injEq] at stepped
    obtain ⟨cut, rewound, -, rfl⟩ := stepped
    exact (holds.rewind inRange).2 cut rewound
  | commit newPath =>
    simp only [fileStep, step, bind_eq_ok, Prod.exists, holds.commit, ok.injEq,
      Prod.mk.injEq, FileAnswer.bytes.injEq] at stepped
    obtain ⟨_, _, ⟨-, rfl, rfl⟩, same, rfl⟩ := stepped
    rw [holds.commitWrite_apply] at same
    have current : file.committedBytes vector.committed = vector.current := same
    rw [current]
    have whole : vector.current = vector.current.take vector.current.length ++ [] := by
      rw [take_length, append_nil]
    exact ⟨holds.commitWrite_apply.trans (congrArg some current), rfl, rfl, Nat.le_refl _, whole⟩
  | read position numBytes =>
    simp only [fileStep, bind_eq_ok, ok.injEq, Prod.mk.injEq] at stepped
    obtain ⟨_, -, -, rfl⟩ := stepped
    exact holds

end

/-- A file that was loaded answers a run of operations like a vector exactly when each of
them works in the state it finds. -/
theorem file_answers_like_vector (files : FileSystem Path Byte) (path : Path)
    {operations : List (FileOperation Path Byte)} (inRange : Allowed step ByteVector.InRange
      ⟨(files path).getD [], (files path).getD []⟩ operations) :
    (∃ last, run fileStep (load files path) operations =
        .ok ((runModel step ⟨(files path).getD [], (files path).getD []⟩ operations).1, last)) ↔
      Along fileStep (fun state operation => operation.Works state)
        (load files path) operations := by
  refine run_answers_iff (fun state vector => HoldsVector state.1 state.2 vector) _ ?_ ?_
    (load_holds files path) inRange
  · intro state vector operation holds allowed
    exact fileStep_answers holds allowed
  · intro state vector operation next holds allowed stepped
    exact fileStep_holds holds allowed stepped

end Steps

/-! ## Three bytes -/

def threeBytes : FileSystem Nat Nat := fun path => if path = 0 then some [1, 2, 3] else none

theorem threeBytes_extended : ∃ last, run fileStep (load threeBytes 0)
    [.append [4], .getSize, .commit 1, .read 2 2, .rewind 1, .commit 2] =
      .ok ([.done, .size 4, .bytes [1, 2, 3, 4], .bytes [3, 4], .done, .bytes [1]], last) := by
  refine (file_answers_like_vector threeBytes 0 ?_).mpr ?_
  · simp [Allowed, ByteVector.InRange, step, threeBytes]
  · refine ⟨trivial, ?_⟩
    rintro _ _ ⟨⟩
    refine ⟨trivial, ?_⟩
    rintro _ _ ⟨⟩
    refine ⟨⟨by decide, by decide⟩, ?_⟩
    rintro _ _ ⟨⟩
    refine ⟨.inr (by decide), ?_⟩
    rintro _ _ ⟨⟩
    refine ⟨rfl, ?_⟩
    rintro _ _ ⟨⟩
    refine ⟨⟨by decide, by decide⟩, ?_⟩
    rintro _ _ ⟨⟩
    trivial

/-- The second byte is replaced: after the commit the file still has the old one. -/
theorem threeBytes_not_replaced : ¬ ∃ last, run fileStep (load threeBytes 0)
    [.rewind 1, .append [9], .commit 1] =
      .ok ((runModel step ⟨[1, 2, 3], [1, 2, 3]⟩
        ([.rewind 1, .append [9], .commit 1] : List (FileOperation Nat Nat))).1, last) := by
  rintro ⟨last, ran⟩
  cases ran

end MooncoinFormal.Mweb
