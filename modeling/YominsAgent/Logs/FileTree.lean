import YominsAgent.Logs.Delivery

/- A file system one can compute with: a list of paths, each with a regular file, a directory or a
   symbolic link. A link is followed where it is the last part of a path, as often as Linux does,
   and globs are paths without meta characters, which `filepath.Glob` returns as they are spelled. -/
namespace YominsAgent.Logs
open Go Lib

inductive Node where
  | file (i : Inode)
  | dir (i : Inode)
  | link (target : Str)
  deriving DecidableEq, Repr

abbrev Tree := List (Str × Node)

/-- How many links a lookup follows. -/
def maxLinks : Nat := 40

namespace Tree

def resolve : Nat → Tree → Str → Option (Str × Node)
  | 0, _, _ => none
  | n + 1, w, p =>
    match w.lookup p with
    | some (.link target) => resolve n w target
    | some node => some (p, node)
    | none => none

def stat (w : Tree) (p : Str) : Option (Inode × Bool) :=
  match resolve maxLinks w p with
  | some (_, .file i) => some (i, true)
  | some (_, .dir i) => some (i, false)
  | _ => none

def glob (w : Tree) (g : Str) : List Str := if (w.lookup g).isSome then [g] else []

theorem eq_of_mem_glob {w : Tree} {g p : Str} (h : p ∈ glob w g) : p = g := by
  unfold glob at h
  split at h
  · exact List.mem_singleton.mp h
  · cases h

theorem lookup_of_stat {w : Tree} {p : Str} (h : stat w p ≠ none) : (w.lookup p).isSome := by
  cases hl : w.lookup p with
  | some => rfl
  | none =>
    refine absurd ?_ h
    simp [stat, maxLinks, resolve, hl]

/-- The file system of a tree, all of it readable. -/
def fileSystem : FileSystem Tree where
  glob := glob
  fileMatch pattern p := pattern == p
  stat := stat
  readable _ _ := true
  real w p := ((resolve maxLinks w p).map (·.1)).getD p
  glob_stable w w' g p hp hex := by
    rw [glob, ← eq_of_mem_glob hp, if_pos (lookup_of_stat hex)]
    exact List.mem_singleton_self p

/-- A pipeline over one path, whose entries are the lines themselves. -/
def pipeline (path : Str) (allow : List Str) : PipelineConfig Tree Bytes where
  source :=
    { fs := fileSystem
      specs := [{ source := [], globs := [path], exclude := [], parser := [], container := [] }]
      allow, parse := fun _ _ line => line }
  shipper := ⟨0, 0, 0, [], []⟩
  stateDir := ['/']
  encode _ e := e.body

end Tree

/-! ## One log file -/

def aLog : Str := "/var/log/a.log".toList

def aPipeline : PipelineConfig Tree Bytes := Tree.pipeline aLog ["/var/log/**".toList]

def aEnv : Env Tree := ⟨0, [(aLog, .file 7)], fun _ => []⟩

end YominsAgent.Logs
