import Lilith.Fault
import Lilith.Theory.Bytes

/-! The image of the file system: the tool that builds it on the host (`fs-tool`) and the kernel code
that reads it (`ramfs.rs`). -/
namespace Lilith.RamFs
open Bytes

def MAGIC : List UInt8 := [76,73,76,73,84,72,33,33]
def PAGE_SIZE : ℕ := 4096
def NAME_LEN : ℕ := 32
def ENTRY_SIZE : ℕ := 64
def HEADER_SIZE : ℕ := 16

/-- The bytes of a string. -/
def asBytes (name : String) : List UInt8 := name.toByteArray.data.toList

/-- A file: its name and its contents. -/
abbrev File : Type := String × List UInt8

/-- How the tool ends without an image. -/
inductive FsToolError where
  /-- a message and `process::exit(1)` -/
  | exit (message : String)
  | fault (fault : Fault)
  deriving DecidableEq, Repr

/-- A line of the table: name, offset and size. -/
structure TableEntry where
  name : String
  offset : ℕ
  size : ℕ
  deriving DecidableEq, Repr

/-- `align_up`, where `!(align - 1)` is the complement of a 64-bit number. -/
def alignUp (val align : ℕ) : Except Fault ℕ := do
  let sum ← checkedAdd val align
  return (sum - 1) &&& (2 ^ 64 - 1 - (align - 1))

/-- The checks of the loop over the input files. -/
def checkNames (seen : List String) : List File → Except FsToolError Unit
  | [] => .ok ()
  | (name,_) :: files =>
    if NAME_LEN < (asBytes name).length then
      .error (.exit s!"fs-tool: file name too long (max {NAME_LEN} bytes): {name}")
    else if name ∈ seen then .error (.exit s!"fs-tool: duplicate file name: {name}")
    else checkNames (name :: seen) files

/-- The loop that computes the offsets, with the size of the image. -/
def computeOffsets (offset : ℕ) : List File → Except Fault (List TableEntry × ℕ)
  | [] => .ok ([],offset)
  | (name,data) :: files => do
    let dataEnd ← checkedAdd offset data.length
    let next ← alignUp dataEnd PAGE_SIZE
    let (entries,total) ← computeOffsets next files
    return (⟨name,offset,data.length⟩ :: entries,total)

/-- `image[lo..hi].copy_from_slice(src)`. -/
def copyFromSlice (image : List UInt8) (lo hi : ℕ) (src : List UInt8) : Except Fault (List UInt8) := do
  assert (lo ≤ hi ∧ hi ≤ image.length) "range out of range for slice"
  assert (hi - lo = src.length) "copy_from_slice: source slice length does not match destination slice length"
  return splice image lo src

/-- The loop that writes the table. -/
def writeTable (image : List UInt8) (i : ℕ) : List TableEntry → Except Fault (List UInt8)
  | [] => .ok image
  | entry :: entries => do
    let base := HEADER_SIZE + i * ENTRY_SIZE
    let nameBytes := asBytes entry.name
    let image ← copyFromSlice image base (base + nameBytes.length) nameBytes
    let image ← copyFromSlice image (base + 32) (base + 40) (toLeBytes 8 entry.offset)
    let image ← copyFromSlice image (base + 40) (base + 48) (toLeBytes 8 entry.size)
    writeTable image (i + 1) entries

/-- The loop that writes the contents of the files. -/
def writeData (image : List UInt8) : List (TableEntry × File) → Except Fault (List UInt8)
  | [] => .ok image
  | (entry,(_,data)) :: files => do
    let image ← copyFromSlice image entry.offset (entry.offset + data.length) data
    writeData image files

/-- `vec![0u8; size]`. -/
def zeroVec (size : ℕ) : Except Fault (List UInt8) := do
  assert (size < 2 ^ 63) "capacity overflow"
  return zeros size

/-- The part of `main` that makes the image of the files. -/
def buildImage (files : List File) : Except Fault (List UInt8) := do
  let numFiles := files.length
  let tableSize ← checkedMul ENTRY_SIZE numFiles
  let tableEnd ← checkedAdd HEADER_SIZE tableSize
  let dataStart ← alignUp tableEnd PAGE_SIZE
  let (entries,totalSize) ← computeOffsets dataStart files
  let image ← zeroVec totalSize
  let image ← copyFromSlice image 0 8 MAGIC
  let image ← copyFromSlice image 8 16 (toLeBytes 8 numFiles)
  let image ← writeTable image 0 entries
  writeData image (entries.zip files)

/-- `main` of `fs-tool` on files that could be read. -/
def fsTool (files : List File) : Except FsToolError (List UInt8) := do
  if files = [] then .error (.exit "usage: fs-tool <image> <file> [file ...]")
  else
    checkNames [] files
    (buildImage files).mapError .fault

structure FsEntry where
  name : List UInt8
  offset : ℕ
  size : ℕ
  deriving DecidableEq, Repr

/-- `RamFs`: the bytes of the image. -/
structure Reader where
  data : List UInt8

namespace Reader

/-- A read of `len` bytes through a raw pointer. -/
def read (r : Reader) (pos len : ℕ) : Except Fault (List UInt8) :=
  if pos + len ≤ r.data.length then .ok (slice r.data pos len) else .error .dangling

/-- The number of files in the header. -/
def nFiles (r : Reader) : Except Fault ℕ := do return fromLeBytes (← r.read 8 8)

def entry (r : Reader) (i : ℕ) : Except Fault FsEntry := do
  let bytes ← r.read (16 + ENTRY_SIZE * i) ENTRY_SIZE
  return ⟨slice bytes 0 32,fromLeBytes (slice bytes 32 8),fromLeBytes (slice bytes 40 8)⟩

def entries (r : Reader) : Except Fault (List FsEntry) := do
  let n ← r.nFiles
  (List.range n).mapM r.entry

/-- The name of an entry, which ends at the first zero or at the end of the field. -/
def entryName (entry : FsEntry) : Except Fault String :=
  let len := (entry.name.findIdx? (· == 0)).getD 32
  match String.fromUTF8? ⟨⟨entry.name.take len⟩⟩ with
  | some name => .ok name
  | none => .error (.panic "called `Result::unwrap()` on an `Err` value")

def iter (r : Reader) : Except Fault (List String) := do
  (← r.entries).mapM entryName

/-- The search of `get`, which looks at no entry behind the one it finds. -/
def find (name : String) : List FsEntry → Except Fault (Option FsEntry)
  | [] => .ok none
  | entry :: entries => do
    if (← entryName entry) = name then return some entry else find name entries

def get (r : Reader) (name : String) : Except Fault (Option (List UInt8)) := do
  match ← find name (← r.entries) with
  | none => return none
  | some entry =>
    let dataEnd ← checkedAdd entry.offset entry.size
    assert (entry.offset ≤ dataEnd ∧ dataEnd ≤ r.data.length) "range out of range for slice"
    return some (slice r.data entry.offset entry.size)

end Reader

end Lilith.RamFs
