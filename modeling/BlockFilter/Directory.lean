import BlockFilter.FooterBlock

/-! Files in a tree of folders, with the paths that lead to them. A path starts at the topmost folder
or at the folder that a program was started in, and is followed step by step. Folders are neither made
nor removed, so the way to a folder does not depend on the files. -/

namespace BlockFilter

/-- A place in the tree, by the names of the way to it from the topmost folder. -/
abbrev Place := List String

/-- Files by place; the first entry of a place counts. A path without a leading slash starts at `home`.
The folders are `home`, those of `folders` and all that lie above one of them. -/
structure Directory where
  files : List (Place × Bytes)
  home : Place := ["home"]
  folders : List Place := []
  deriving DecidableEq, Repr

namespace Directory

def empty : Directory where
  files := []

/-- Whether there is a folder in a place. -/
def isFolder (directory : Directory) (place : Place) : Bool :=
  (directory.home :: directory.folders).any place.isPrefixOf

/-- The contents of the file in a place. -/
def find? (directory : Directory) (place : Place) : Option Bytes := directory.files.lookup place

/-- Give the file in a place new contents. -/
def put (directory : Directory) (place : Place) (contents : Bytes) : Directory :=
  { directory with files := (place, contents) :: directory.files.filter (·.1 ≠ place) }

@[simp] theorem isFolder_put (directory : Directory) (place : Place) (contents : Bytes) :
    (directory.put place contents).isFolder = directory.isFolder := rfl

@[simp] theorem find?_put (directory : Directory) (place : Place) (contents : Bytes) :
    (directory.put place contents).find? place = some contents := by
  simp [find?, put]

theorem find?_put_of_ne (directory : Directory) {place other : Place} (contents : Bytes)
    (h : other ≠ place) : (directory.put place contents).find? other = directory.find? other := by
  have hPlace : (other == place) = false := by simpa using h
  simp only [find?, put, List.lookup_cons, hPlace]
  induction directory.files with
  | nil => rfl
  | cons file files ih =>
      by_cases hFile : file.1 = place
      · have hOther : (other == file.1) = false := by simpa [hFile] using h
        rw [List.filter_cons_of_neg (by simpa using hFile), ih, List.lookup_cons, hOther]
      · rw [List.filter_cons_of_pos (by simpa using hFile), List.lookup_cons, List.lookup_cons, ih]

/-! ## Paths -/

/-- The longest name, in bytes of UTF-8. -/
def maxNameBytes : Nat := 255

/-- The longest path, in bytes of UTF-8. -/
def maxPathBytes : Nat := 4095

/-- The parts of a path between its slashes, blank ones included. -/
def steps (path : String) : List String := (path.toList.splitOn '/').map String.ofList

/-- Where the first step of a path is taken. A leading slash stands for the topmost folder. -/
def start (directory : Directory) (path : String) : Place :=
  if path.toList.head? = some '/' then [] else directory.home

/-- Take a step from a place. A file has no steps out of it, not even one that stays, and the topmost
folder is above itself. -/
def step (directory : Directory) (place : Place) (name : String) : Except FileFault Place :=
  if ¬directory.isFolder place then .error .notFolder
  else if name = "" ∨ name = "." then .ok place
  else if name = ".." then .ok place.dropLast
  else if maxNameBytes < name.utf8ByteSize then .error .nameTooLong
  else
    let next := place ++ [name]
    if directory.isFolder next ∨ (directory.find? next).isSome then .ok next else .error .notFound

/-- Take steps one after the other. -/
def walk (directory : Directory) (place : Place) (names : List String) : Except FileFault Place :=
  names.foldlM directory.step place

/-- Refuse a path by its length. -/
def checkPath (path : String) : Except FileFault Unit :=
  if path = "" then .error .notFound
  else if maxPathBytes < path.utf8ByteSize then .error .nameTooLong
  else .ok ()

/-! ## Files by path -/

/-- Read the file that a path leads to. -/
def read (directory : Directory) (path : String) : Except FileFault Bytes := do
  checkPath path
  let place ← directory.walk (directory.start path) (steps path)
  if directory.isFolder place then throw .isFolder
  else match directory.find? place with
    | some contents => return contents
    | none => throw .notFound

/-- The steps of a path before the last one that is not blank. -/
def stepsBefore (path : String) : List String :=
  (((steps path).reverse.dropWhile (· = "")).drop 1).reverse

/-- The place of a file, new or old, with a name in a folder. No name, `.` and `..` ask for a folder,
as does the name of one. -/
def placeIn (directory : Directory) (folder : Place) (name : String) : Except FileFault Place :=
  if ¬directory.isFolder folder then .error .notFolder
  else if name = "" ∨ name = "." ∨ name = ".." then .error .isFolder
  else if maxNameBytes < name.utf8ByteSize then .error .nameTooLong
  else if directory.isFolder (folder ++ [name]) then .error .isFolder
  else .ok (folder ++ [name])

/-- The place of the file that a path asks to write. The last step names it and is not taken. A path
that ends in a slash names a folder instead, which is refused after the steps that lead to it. -/
def target (directory : Directory) (path : String) : Except FileFault Place := do
  checkPath path
  let folder ← directory.walk (directory.start path) (stepsBefore path)
  directory.placeIn folder ((steps path).getLastD "")

/-- Write a file, new or in place of an old one. -/
def write (directory : Directory) (path : String) (contents : Bytes) :
    Except FileFault Directory :=
  (directory.target path).map fun place => directory.put place contents

end Directory

namespace TableFilter

/-- Write the footer block of a filter to a file. -/
def save (filter : TableFilter) (directory : Directory) (path : String) :
    Except FilterError Directory := do
  let block ← FooterBlock.encode filter
  (directory.write path block).mapError FilterError.file

/-- Read a filter from a file that holds its footer block. -/
def load (directory : Directory) (path : String) : Except FilterError TableFilter := do
  let block ← (directory.read path).mapError FilterError.file
  FooterBlock.decode block

end TableFilter

end BlockFilter
