import Resumable.Text.Basic

/-!
# Paths

Paths are texts with slashes between their parts. The operations here only look at the text: whether
there is a file at a path is known to the file system alone.
-/

namespace Resumable

namespace Path

/-- The byte between the parts. -/
def slash : UInt8 := 47

/-- Does a path start at the root? -/
def isAbsolute (p : Text) : Bool := p.bytes.head? = some slash

/-- The parts between slashes. -/
def parts (p : Text) : List Text := p.splitOn slash

/-- Takes one more part into a path that is already clean, the last part first. Parts that say
nothing are dropped, and `..` takes back the part before it. -/
def cleanStep (rooted : Bool) (done : List Text) (part : Text) : List Text :=
  if part.isEmpty || part = "." then done
  else if part = ".." then
    match done with
    | [] => if rooted then [] else [part]
    | last :: before => if last = ".." then part :: done else before
  else part :: done

/-- The shortest path that means the same. -/
def clean (p : Text) : Text :=
  let rooted := isAbsolute p
  let rest := Text.join "/" ((parts p).foldl (cleanStep rooted) []).reverse
  if rooted then "/" ++ rest
  else if rest.isEmpty then "."
  else rest

/-- One path after the other. -/
def join (a b : Text) : Text :=
  if a.isEmpty then (if b.isEmpty then ∅ else clean b) else clean (a ++ "/" ++ b)

/-- The bytes after the last slash, and those up to it. -/
def split (p : Text) : Text × Text :=
  let back := p.bytes.reverse
  (⟨(back.takeWhile (· ≠ slash)).reverse⟩, ⟨(back.dropWhile (· ≠ slash)).reverse⟩)

/-- The directory that a path is in. -/
def directory (p : Text) : Text := clean (split p).2

/-- The path without slashes at its end. -/
def trimmed (p : Text) : Text := ⟨(p.bytes.reverse.dropWhile (· = slash)).reverse⟩

/-- The last part. -/
def base (p : Text) : Text :=
  if p.isEmpty then "."
  else
    let last := (split (trimmed p)).1
    if last.isEmpty then "/" else last

/-- The last part from its last dot on. -/
def extension (p : Text) : Text :=
  let back := (split p).1.bytes.reverse
  let ext := back.takeWhile (· ≠ 46)
  if ext.length < back.length then ⟨46 :: ext.reverse⟩ else ∅

/-- What stands before the last part and its slash; nothing if there is only one part. -/
def parent (p : Text) : Text := ⟨(split (trimmed p)).2.bytes.dropLast⟩

end Path

end Resumable
