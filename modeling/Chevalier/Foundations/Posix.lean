import Chevalier.Foundations.Places

/-!
# A POSIX file system

Names are paths, component by component; a name is a directory, a symbolic link, or a link to an
inode that holds bytes and a mode. A `FileSystem` carries its own well-formedness: it has finitely
many names, the root is a directory, every other name stands in a directory, and inodes that were
never handed out are not in use. The system calls are total functions that return the next file
system or an error number; one that fails changes nothing.

Paths are resolved without following symbolic links: a link in front of the last component is an
error, as under `RESOLVE_NO_SYMLINKS`.

`FileSystem.ext_node` says when two file systems are equal, and the `node_*` lemmas what each call
does to every name.
-/

namespace Chevalier.Posix

open List

/-- A path below the root, component by component. -/
abbrev Path := List String

/-- The contents of a file. -/
abbrev Bytes := List UInt8

/-- What a name stands for. -/
inductive Node
  | directory (mode : Nat)
  | file (inode : Nat)
  | symlink (target : String)
deriving DecidableEq, Repr

/-- What an inode holds. -/
structure FileData where
  bytes : Bytes
  mode : Nat
deriving DecidableEq, Repr

/-- The error numbers the calls return. -/
inductive Errno
  | noEntry
  | entryExists
  | notDirectory
  | isDirectory
  | notEmpty
  | invalidArgument
  | notPermitted
  | busy
  | loop
deriving DecidableEq, Repr

structure FileSystem where
  node : Path → Option Node
  names : Finset Path
  mem_names : ∀ path, path ∈ names ↔ (node path).isSome
  root : ∃ mode, node [] = some (.directory mode)
  parent : ∀ path name entry, node (path ++ [name]) = some entry →
    ∃ mode, node path = some (.directory mode)
  data : Nat → FileData
  fresh : Nat
  inode_lt : ∀ path inode, node path = some (.file inode) → inode < fresh

namespace FileSystem

/-- The names, their inodes and the next inode determine a file system. -/
theorem ext_node {fs fs' : FileSystem} (hno : ∀ path, fs.node path = fs'.node path)
    (hd : fs.data = fs'.data) (hf : fs.fresh = fs'.fresh) : fs = fs' := by
  obtain ⟨node, n, hn, _, _, data, f, _⟩ := fs
  obtain ⟨node', n', hn', _, _, data', f', _⟩ := fs'
  obtain rfl : node = node' := funext hno
  obtain rfl : data = data' := hd
  obtain rfl : f = f' := hf
  obtain rfl : n = n' := Finset.ext fun path => by rw [hn, hn']
  rfl

variable (fs : FileSystem)

/-- The name is a directory. -/
def IsDirectory (path : Path) : Prop := ∃ mode, fs.node path = some (.directory mode)

instance (path : Path) : Decidable (fs.IsDirectory path) :=
  match h : fs.node path with
  | some (.directory mode) => .isTrue ⟨mode, h⟩
  | none => .isFalse fun ⟨_, hnode⟩ => by simp [h] at hnode
  | some (.file _) => .isFalse fun ⟨_, hnode⟩ => by simp [h] at hnode
  | some (.symlink _) => .isFalse fun ⟨_, hnode⟩ => by simp [h] at hnode

/-- Nothing lies below the name. -/
def Childless (path : Path) : Prop := ∀ other ∈ fs.names, path <+: other → other = path

instance (path : Path) : Decidable (fs.Childless path) :=
  inferInstanceAs (Decidable (∀ _ ∈ _, _))

/-- The name is free and its directory exists. -/
def Vacant (path : Path) : Prop :=
  path ≠ [] ∧ fs.node path = none ∧ fs.IsDirectory path.dropLast

instance (path : Path) : Decidable (fs.Vacant path) := inferInstanceAs (Decidable (_ ∧ _ ∧ _))

/-- Every name on the way to the path that exists is a directory. -/
def Extensible (path : Path) : Prop :=
  ∀ front ∈ path.inits, fs.node front = none ∨ fs.IsDirectory front

instance (path : Path) : Decidable (fs.Extensible path) :=
  inferInstanceAs (Decidable (∀ _ ∈ _, _))

/-- Why a path that names nothing does not resolve. -/
def missing (path : Path) : Errno :=
  match (path.inits.filterMap fs.node).getLast? with
  | some (.file _) => .notDirectory
  | some (.symlink _) => .loop
  | _ => .noEntry

/-! ## Names above and below -/

variable {fs}

variable {front fr : Path}

theorem prefix_dropLast {path : Path} (h : fr <+: path) (hne : fr ≠ path) :
    fr <+: path.dropLast := by
  rcases eq_nil_or_concat path with rfl | ⟨_, _, rfl⟩
  · exact absurd (List.prefix_nil.1 h) hne
  · rw [concat_eq_append] at *
    rw [dropLast_concat]
    exact (List.prefix_concat_iff.1 h).resolve_left hne

variable {entry en : Node}

theorem isDirectory_dropLast {path : Path} (hne : path ≠ [])
    (h : fs.node path = some en) : fs.IsDirectory path.dropLast := by
  obtain ⟨fr, name, rfl⟩ := (eq_nil_or_concat path).resolve_left hne
  rw [concat_eq_append] at h ⊢
  rw [dropLast_concat]
  exact fs.parent fr name en h

/-- Every name above an existing one is a directory. -/
theorem isDirectory_of_front {path : Path} (hi : fr <+: path) (hne : fr ≠ path) (h : fs.node path = some en) : fs.IsDirectory fr := by
  induction path using List.reverseRecOn generalizing en with
  | nil => exact absurd (List.prefix_nil.1 hi) hne
  | append_singleton path name ih =>
    obtain ⟨mode, hp⟩ := fs.parent path name en h
    rcases List.prefix_concat_iff.1 hi with rfl | hf
    · exact absurd rfl hne
    · by_cases heq : fr = path
      · exact ⟨mode, heq ▸ hp⟩
      · exact ih hf heq hp

/-- Nothing lies below a name that is no directory. -/
theorem node_below_eq_none {path b : Path} (hi : path <+: b) (hne : path ≠ b)
    (h : ¬ fs.IsDirectory path) : fs.node b = none := by
  cases hb : fs.node b with
  | none => rfl
  | some => exact absurd (isDirectory_of_front hi hne hb) h

theorem childless_iff {path : Path} :
    fs.Childless path ↔ ∀ b, path <+: b → b ≠ path → fs.node b = none := by
  constructor
  · intro h b hi hne
    cases hb : fs.node b with
    | none => rfl
    | some => exact absurd (h b ((fs.mem_names b).2 (by simp [hb])) hi) hne
  · intro h b hmem hi
    by_contra hne
    have hn := h b hi hne
    rw [fs.mem_names, hn] at hmem
    cases hmem

theorem extensible_iff {path : Path} : fs.Extensible path ↔
    ∀ fr, fr <+: path → fs.node fr = none ∨ fs.IsDirectory fr := by
  simp only [Extensible, mem_inits]

theorem extensible_above {path : Path} (h : fs.Extensible path)
    (hi : fr <+: path) : fs.Extensible fr :=
  extensible_iff.2 fun o ho => extensible_iff.1 h o (ho.trans hi)

theorem extensible_of_isDirectory {path : Path} (h : fs.IsDirectory path) :
    fs.Extensible path := by
  obtain ⟨mode, hn⟩ := h
  refine extensible_iff.2 fun fr hf => .inr ?_
  by_cases heq : fr = path
  · exact ⟨mode, heq ▸ hn⟩
  · exact isDirectory_of_front hf heq hn

theorem ne_nil_of_node {path : Path} (h : fs.node path = none) : path ≠ [] := by
  rintro rfl
  obtain ⟨_, hm⟩ := fs.root
  rw [h] at hm
  cases hm

theorem not_prefix_dropLast {path : Path} (hne : path ≠ []) : ¬ path <+: path.dropLast := by
  intro hi
  have hle := hi.length_le
  have hpos := List.length_pos_iff.2 hne
  rw [length_dropLast] at hle
  omega

/-- Only directories lie above an existing name. -/
theorem extensible_dropLast {path : Path} (h : fs.node path = some en) :
    fs.Extensible path.dropLast := by
  by_cases hr : path = []
  · rw [hr]
    exact extensible_of_isDirectory fs.root
  · exact extensible_of_isDirectory (isDirectory_dropLast hr h)

/-! ## Changing names -/

variable (fs)

def reshape (node : Path → Option Node) (bound : Finset Path)
    (hbound : ∀ path, (node path).isSome → path ∈ bound)
    (hroot : ∃ mode, node [] = some (.directory mode))
    (hparent : ∀ path name entry, node (path ++ [name]) = some entry →
      ∃ mode, node path = some (.directory mode))
    (hinode : ∀ path inode, node path = some (.file inode) → inode < fs.fresh) : FileSystem where
  node := node
  names := bound.filter fun path => (node path).isSome
  mem_names path := by
    rw [Finset.mem_filter]
    exact ⟨fun h => h.2, fun h => ⟨hbound path h, h⟩⟩
  root := hroot
  parent := hparent
  data := fs.data
  fresh := fs.fresh
  inode_lt := hinode

def insert (path : Path) (entry : Node) (h : fs.Vacant path)
    (hinode : ∀ inode, entry = .file inode → inode < fs.fresh) : FileSystem :=
  fs.reshape (fun other => if other = path then some entry else fs.node other)
    (Insert.insert path fs.names)
    (by
      intro other hother
      by_cases heq : other = path
      · exact heq ▸ Finset.mem_insert_self _ _
      · rw [if_neg heq] at hother
        exact Finset.mem_insert_of_mem ((fs.mem_names other).2 hother))
    (by rw [if_neg h.1.symm]; exact fs.root)
    (by
      intro front name found hfound
      have hkeep : fs.IsDirectory front → ∃ mode,
          (if front = path then some entry else fs.node front) = some (.directory mode) := by
        rintro ⟨mode, hmode⟩
        refine ⟨mode, ?_⟩
        rw [if_neg]
        · exact hmode
        · rintro rfl
          rw [h.2.1] at hmode
          cases hmode
      by_cases heq : front ++ [name] = path
      · refine hkeep ?_
        have hdir := h.2.2
        rwa [← heq, List.dropLast_concat] at hdir
      · rw [if_neg heq] at hfound
        exact hkeep (fs.parent front name found hfound))
    (by
      intro other inode hother
      by_cases heq : other = path
      · rw [if_pos heq] at hother
        exact hinode inode (Option.some.inj hother)
      · rw [if_neg heq] at hother
        exact fs.inode_lt other inode hother)

def erase (path : Path) (hne : path ≠ []) (h : fs.Childless path) : FileSystem :=
  fs.reshape (fun other => if other = path then none else fs.node other) fs.names
    (by
      intro other hother
      by_cases heq : other = path
      · rw [if_pos heq] at hother
        cases hother
      · rw [if_neg heq] at hother
        exact (fs.mem_names other).2 hother)
    (by rw [if_neg hne.symm]; exact fs.root)
    (by
      intro front name found hfound
      by_cases heq : front ++ [name] = path
      · rw [if_pos heq] at hfound
        cases hfound
      · rw [if_neg heq] at hfound
        obtain ⟨mode, hmode⟩ := fs.parent front name found hfound
        refine ⟨mode, ?_⟩
        rw [if_neg]
        · exact hmode
        · rintro rfl
          have hnone := childless_iff.1 h _ (List.prefix_append front [name]) (by simp)
          rw [hnone] at hfound
          cases hfound)
    (by
      intro other inode hother
      by_cases heq : other = path
      · rw [if_pos heq] at hother
        cases hother
      · rw [if_neg heq] at hother
        exact fs.inode_lt other inode hother)

/-- The file system with a directory at every missing name on the way to a path. -/
def addDirectories (path : Path) (mode : Nat) (h : fs.Extensible path) : FileSystem :=
  fs.reshape
    (fun other => if fs.node other = none ∧ other <+: path then some (.directory mode)
      else fs.node other)
    (fs.names ∪ path.inits.toFinset)
    (by
      intro other hother
      by_cases hnew : fs.node other = none ∧ other <+: path
      · exact Finset.mem_union_right _ (List.mem_toFinset.2 (List.mem_inits _ _ |>.2 hnew.2))
      · rw [if_neg hnew] at hother
        exact Finset.mem_union_left _ ((fs.mem_names other).2 hother))
    (by
      obtain ⟨rootMode, hroot⟩ := fs.root
      exact ⟨rootMode, by simp [hroot]⟩)
    (by
      intro front name found hfound
      by_cases hold : fs.IsDirectory front
      · obtain ⟨oldMode, hold⟩ := hold
        exact ⟨oldMode, by simp [hold]⟩
      · have hinit : front ++ [name] <+: path := by
          by_contra hnot
          rw [if_neg fun hnew => hnot hnew.2] at hfound
          exact hold (fs.parent front name found hfound)
        have hfront := (List.prefix_append front [name]).trans hinit
        have hnone := (extensible_iff.1 h front hfront).resolve_right hold
        exact ⟨mode, by rw [if_pos ⟨hnone, hfront⟩]⟩)
    (by
      intro other inode hother
      split_ifs at hother with hnew
      · cases hother
      · exact fs.inode_lt other inode hother)

/-- The file system without the subtree of one of its names; of the root, everything below it. -/
def prune (path : Path) : FileSystem :=
  fs.reshape (fun other => if path <+: other ∧ other ≠ [] then none else fs.node other) fs.names
    (by
      intro other hother
      split_ifs at hother with hbelow
      · cases hother
      · exact (fs.mem_names other).2 hother)
    (by rw [if_neg fun hbelow => hbelow.2 rfl]; exact fs.root)
    (by
      intro front name found hfound
      split_ifs at hfound with hbelow
      obtain ⟨mode, hmode⟩ := fs.parent front name found hfound
      refine ⟨mode, ?_⟩
      rw [if_neg fun hfront => hbelow ⟨hfront.1.trans (List.prefix_append _ _), by simp⟩]
      exact hmode)
    (by
      intro other inode hother
      split_ifs at hother with hbelow
      exact fs.inode_lt other inode hother)

/-- The name a moved subtree had before. -/
def movedFrom (source target path : Path) : Path := source ++ path.drop target.length

theorem prefix_movedFrom (s t path : Path) : s <+: movedFrom s t path := prefix_append _ _

/-- The file system with the subtree of one name moved to another one. -/
def move (source target : Path) (hsource : source ≠ []) (hapart : ¬ source <+: target)
    (htarget : fs.IsDirectory target.dropLast) (hne : target ≠ []) : FileSystem :=
  fs.reshape
    (fun path => if target <+: path then fs.node (movedFrom source target path)
      else if source <+: path then none else fs.node path)
    (fs.names ∪ fs.names.image (movedFrom target source))
    (by
      intro path hpath
      by_cases hto : target <+: path
      · rw [if_pos hto] at hpath
        refine Finset.mem_union_right _ (Finset.mem_image.2
          ⟨movedFrom source target path, (fs.mem_names _).2 hpath, ?_⟩)
        obtain ⟨rest, rfl⟩ := hto
        simp [movedFrom]
      · rw [if_neg hto] at hpath
        split_ifs at hpath with hfrom
        · cases hpath
        · exact Finset.mem_union_left _ ((fs.mem_names path).2 hpath))
    (by
      rw [if_neg (fun hto => hne (List.prefix_nil.1 hto)),
        if_neg (fun hfrom => hsource (List.prefix_nil.1 hfrom))]
      exact fs.root)
    (by
      intro front name found hfound
      by_cases hto : target <+: front
      · rw [if_pos (hto.trans (List.prefix_append _ _))] at hfound
        rw [if_pos hto]
        refine fs.parent _ name found ?_
        obtain ⟨rest, rfl⟩ := hto
        simpa [movedFrom] using hfound
      · rw [if_neg hto]
        by_cases hleaf : target <+: front ++ [name]
        · -- the moved name itself: its directory is where the target is
          obtain rfl := (List.prefix_concat_iff.1 hleaf).resolve_right hto
          rw [if_neg fun hfrom => hapart (hfrom.trans (List.prefix_append _ _))]
          rwa [List.dropLast_concat] at htarget
        · rw [if_neg hleaf] at hfound
          split_ifs at hfound with hfrom
          rw [if_neg fun hfrom' => hfrom (hfrom'.trans (List.prefix_append _ _))]
          exact fs.parent front name found hfound)
    (by
      intro path inode hpath
      split_ifs at hpath with hto hfrom
      · exact fs.inode_lt _ inode hpath
      · exact fs.inode_lt _ inode hpath)

def setDirectoryMode (path : Path) (mode : Nat) (h : fs.IsDirectory path) : FileSystem :=
  fs.reshape (fun other => if other = path then some (.directory mode) else fs.node other) fs.names
    (by
      intro other hother
      by_cases heq : other = path
      · obtain ⟨old, hold⟩ := h
        exact (fs.mem_names other).2 (by rw [heq, hold]; rfl)
      · rw [if_neg heq] at hother
        exact (fs.mem_names other).2 hother)
    (by
      by_cases heq : ([] : Path) = path
      · exact ⟨mode, if_pos heq⟩
      · rw [if_neg heq]
        exact fs.root)
    (by
      intro front name found hfound
      have hfront : fs.IsDirectory front := by
        by_cases heq : front ++ [name] = path
        · obtain ⟨old, hold⟩ := h
          exact fs.parent front name _ (heq ▸ hold)
        · rw [if_neg heq] at hfound
          exact fs.parent front name found hfound
      by_cases heq : front = path
      · exact ⟨mode, if_pos heq⟩
      · rw [if_neg heq]
        exact hfront)
    (by
      intro other inode hother
      split_ifs at hother with heq
      · cases hother
      · exact fs.inode_lt other inode hother)

def setData (inode : Nat) (contents : FileData) : FileSystem :=
  { fs with data := fun other => if other = inode then contents else fs.data other }

/-- The file system with the next inode handed out. -/
def allocate (contents : FileData) : FileSystem :=
  { fs with
    data := fun other => if other = fs.fresh then contents else fs.data other
    fresh := fs.fresh + 1
    inode_lt := fun path inode h => Nat.lt_succ_of_lt (fs.inode_lt path inode h) }

/-! ## The system calls -/

/-- `lstat`: what the path names. -/
def lstat (path : Path) : Except Errno Node :=
  match fs.node path with
  | some entry => .ok entry
  | none => .error (fs.missing path)

/-- Why no name can be made at the path. -/
def occupied (path : Path) : Errno :=
  if (fs.node path).isSome then .entryExists else fs.missing path

/-- Make a name for an entry that needs no inode of its own. -/
def createEntry (path : Path) (entry : Node)
    (hinode : ∀ inode, entry = .file inode → inode < fs.fresh) : Except Errno FileSystem :=
  if h : fs.Vacant path then .ok (fs.insert path entry h hinode) else .error (fs.occupied path)

def mkdir (path : Path) (mode : Nat) : Except Errno FileSystem :=
  fs.createEntry path (.directory mode) (nofun)

/-- `mkdir` of a path and of every missing directory above it. -/
def createDirAll (path : Path) (mode : Nat) : Except Errno FileSystem :=
  if h : fs.Extensible path then .ok (fs.addDirectories path mode h)
  else .error (fs.occupied path)

def symlink (target : String) (path : Path) : Except Errno FileSystem :=
  fs.createEntry path (.symlink target) (nofun)

/-- `link`: one more name for the file or link of another one. -/
def link (source target : Path) : Except Errno FileSystem :=
  match h : fs.node source with
  | none => .error (fs.missing source)
  | some (.directory _) => .error .notPermitted
  | some (.symlink text) => fs.createEntry target (.symlink text) (nofun)
  | some (.file inode) => fs.createEntry target (.file inode) (by
      intro _ heq
      cases heq
      exact fs.inode_lt source inode h)

/-- `open` with `O_CREAT | O_EXCL`, and a write of the contents. -/
def createFile (path : Path) (contents : FileData) : Except Errno FileSystem :=
  (fs.allocate contents).createEntry path (.file fs.fresh) (by
    intro _ heq
    cases heq
    exact Nat.lt_succ_self _)

def unlink (path : Path) : Except Errno FileSystem :=
  match fs.node path with
  | none => .error (fs.missing path)
  | some (.directory _) => .error .isDirectory
  | some _ =>
    if h : path ≠ [] ∧ fs.Childless path then .ok (fs.erase path h.1 h.2) else .error .isDirectory

def rmdir (path : Path) : Except Errno FileSystem :=
  match fs.node path with
  | none => .error (fs.missing path)
  | some (.directory _) =>
    if h : path ≠ [] ∧ fs.Childless path then .ok (fs.erase path h.1 h.2) else .error .notEmpty
  | some _ => .error .notDirectory

/-- Remove a directory and everything below it. -/
def removeTree (path : Path) : Except Errno FileSystem :=
  match fs.node path with
  | none => .error (fs.missing path)
  | some (.directory _) => .ok (fs.prune path)
  | some _ => .error .notDirectory

/-- `chmod` that does not follow a link. -/
def chmod (path : Path) (mode : Nat) : Except Errno FileSystem :=
  match h : fs.node path with
  | none => .error (fs.missing path)
  | some (.directory old) => .ok (fs.setDirectoryMode path mode ⟨old, h⟩)
  | some (.file inode) => .ok (fs.setData inode { fs.data inode with mode := mode })
  | some (.symlink _) => .error .notPermitted

/-- Replace the bytes of an open file. -/
def rewrite (inode : Nat) (bytes : Bytes) : FileSystem :=
  fs.setData inode { fs.data inode with bytes := bytes }

/-- Whether a rename may replace what it finds at its target. -/
def replaceable (moved : Node) (target : Path) : Except Errno Unit :=
  match moved, fs.node target with
  | _, none => .ok ()
  | .directory _, some (.directory _) => if fs.Childless target then .ok () else .error .notEmpty
  | .directory _, some _ => .error .notDirectory
  | _, some (.directory _) => .error .isDirectory
  | _, some _ => .ok ()

/-- The two names are links to one inode. -/
def SameFile (path other : Path) : Prop :=
  ∃ inode, fs.node path = some (.file inode) ∧ fs.node other = some (.file inode)

instance (path other : Path) : Decidable (fs.SameFile path other) :=
  match h : fs.node path with
  | some (.file inode) =>
    decidable_of_iff (fs.node other = some (.file inode))
      ⟨fun hother => ⟨inode, h, hother⟩, fun ⟨_, hpath, hother⟩ => by
        rw [h] at hpath
        cases hpath
        exact hother⟩
  | none => .isFalse fun ⟨_, hpath, _⟩ => by simp [h] at hpath
  | some (.directory _) => .isFalse fun ⟨_, hpath, _⟩ => by simp [h] at hpath
  | some (.symlink _) => .isFalse fun ⟨_, hpath, _⟩ => by simp [h] at hpath

/-- `rename`. A rename onto itself, or onto another name of the same file, does nothing. -/
def rename (source target : Path) : Except Errno FileSystem :=
  match fs.node source with
  | none => .error (fs.missing source)
  | some moved =>
    if source = [] ∨ target = [] then .error .busy
    else if source = target ∨ fs.SameFile source target then .ok fs
    else if h : source ≠ [] ∧ target ≠ [] ∧ fs.IsDirectory target.dropLast ∧
        ¬ source <+: target then do
      fs.replaceable moved target
      return fs.move source target h.1 h.2.2.2 h.2.2.1 h.2.1
    else if source <+: target then .error .invalidArgument
    else .error (fs.missing target)

def bare (mode : Nat) : FileSystem where
  node path := if path = [] then some (.directory mode) else none
  names := {[]}
  mem_names path := by by_cases h : path = [] <;> simp [h]
  root := ⟨mode, rfl⟩
  parent path name entry h := by simp at h
  data _ := ⟨[], 0⟩
  fresh := 0
  inode_lt path inode h := by split_ifs at h; cases h

def after (calls : List (FileSystem → Except Errno FileSystem)) : FileSystem :=
  calls.foldl (fun fs call => match call fs with
    | .ok next => next
    | .error _ => fs) fs

/-! ## What the calls do to a name -/

variable {fs} {path other o : Path}

variable {mode : Nat}

@[simp] theorem node_setDirectoryMode (h : fs.IsDirectory path) (o : Path) :
    (fs.setDirectoryMode path mode h).node o =
      if o = path then some (.directory mode) else fs.node o := rfl

theorem lstat_eq_ok : fs.lstat path = .ok en ↔ fs.node path = some en := by
  unfold lstat
  cases fs.node path <;> simp

theorem lstat_eq_error {e : Errno} :
    fs.lstat path = .error e ↔ fs.node path = none ∧ fs.missing path = e := by
  unfold lstat
  cases fs.node path <;> simp

/-- A path that only directories lie on is missing for no other reason than that it is missing. -/
theorem missing_of_extensible (h : fs.Extensible path) : fs.missing path = .noEntry := by
  unfold missing
  cases hl : (path.inits.filterMap fs.node).getLast? with
  | none => rfl
  | some =>
    obtain ⟨fr, hf, he⟩ := List.mem_filterMap.1 (mem_of_getLast? hl)
    rcases h fr hf with hn | ⟨_, hm⟩
    · rw [hn] at he
      cases he
    · rw [hm] at he
      cases he
      rfl

/-- What is missing for no other reason than that it is missing has only directories above it. -/
theorem extensible_of_missing (hn : fs.node path = none) (h : fs.missing path = .noEntry) :
    fs.Extensible path := by
  refine extensible_iff.2 fun fr hf => ?_
  by_contra hno
  obtain ⟨hs, hd⟩ := not_or.1 hno
  obtain ⟨en, he⟩ := Option.ne_none_iff_exists'.1 hs
  -- nothing lies below the name, so it is the last one on the way that exists
  have hl : (path.inits.filterMap fs.node).getLast? = some en := by
    obtain ⟨rest, rfl⟩ := hf
    have hb : (rest.inits.tail.map (fr ++ ·)).filterMap fs.node = [] := by
      refine List.filterMap_eq_nil_iff.2 fun b hmem => ?_
      obtain ⟨more, hm, rfl⟩ := List.mem_map.1 hmem
      refine node_below_eq_none (prefix_append _ _) (fun heq => ?_) hd
      obtain rfl : more = [] := by simpa using heq
      cases rest <;> simp at hm
    rw [inits_append, filterMap_append, hb, append_nil]
    rcases eq_nil_or_concat fr with rfl | ⟨_, _, rfl⟩
    · simp [he]
    · rw [concat_eq_append] at he ⊢
      simp [inits_append, he]
  unfold missing at h
  rw [hl] at h
  cases en with
  | directory mode => exact hd ⟨mode, he⟩
  | file => cases h
  | symlink => cases h

theorem extensible_of_dropLast (hn : fs.node path = none)
    (h : fs.Extensible path.dropLast) : fs.Extensible path := by
  refine extensible_iff.2 fun fr hf => ?_
  rcases eq_nil_or_concat path with rfl | ⟨_, _, rfl⟩
  · rw [prefix_nil] at hf
    exact .inl (hf ▸ hn)
  · rw [concat_eq_append] at *
    rw [dropLast_concat] at h
    rcases List.prefix_concat_iff.1 hf with rfl | hf
    · exact .inl hn
    · exact extensible_iff.1 h fr hf

/-! ## What a successful call did -/

section

variable {fs' : FileSystem}

theorem eq_iff_node : fs = fs' ↔
    (∀ o, fs'.node o = fs.node o) ∧ fs'.data = fs.data ∧ fs'.fresh = fs.fresh :=
  ⟨(fun h => h ▸ ⟨fun _ => rfl, rfl, rfl⟩), fun ⟨hn, hd, hf⟩ =>
    ext_node (fun o => (hn o).symm) hd.symm hf.symm⟩

theorem createEntry_eq_ok {en : Node}
    {hi : ∀ i, en = .file i → i < fs.fresh} :
    fs.createEntry path en hi = .ok fs' ↔ fs.Vacant path ∧
      (∀ o, fs'.node o = if o = path then some en else fs.node o) ∧
      fs'.data = fs.data ∧ fs'.fresh = fs.fresh := by
  unfold createEntry
  split_ifs with h
  · rw [Except.ok.injEq, eq_iff_node]
    exact ⟨fun hall => ⟨h, hall⟩, fun hall => hall.2⟩
  · exact ⟨(nofun), fun hall => absurd hall.1 h⟩

theorem exists_createEntry (en : Node)
    (hi : ∀ i, en = .file i → i < fs.fresh) (h : fs.Vacant path) :
    ∃ fs', fs.createEntry path en hi = .ok fs' := ⟨_, dif_pos h⟩

theorem exists_createDirAll (mode : Nat) (h : fs.Extensible path) :
    ∃ fs', fs.createDirAll path mode = .ok fs' := ⟨_, dif_pos h⟩

variable {mode : Nat}

theorem createDirAll_eq_ok : fs.createDirAll path mode = .ok fs' ↔
    fs.Extensible path ∧
      (∀ o, fs'.node o =
        if fs.node o = none ∧ o <+: path then some (.directory mode)
        else fs.node o) ∧
      fs'.data = fs.data ∧ fs'.fresh = fs.fresh := by
  unfold createDirAll
  split_ifs with h
  · rw [Except.ok.injEq, eq_iff_node]
    exact ⟨fun hall => ⟨h, hall⟩, fun hall => hall.2⟩
  · exact ⟨(nofun), fun hall => absurd hall.1 h⟩

theorem isDirectory_of_createDirAll (h : fs.createDirAll path mode = .ok fs') :
    fs'.IsDirectory path := by
  obtain ⟨he, hn, -⟩ := createDirAll_eq_ok.1 h
  rcases extensible_iff.1 he path prefix_rfl with hno | ⟨old, hd⟩
  · exact ⟨mode, by rw [hn, if_pos ⟨hno, prefix_rfl⟩]⟩
  · exact ⟨old, by rw [hn, if_neg fun hne => by simp [hd] at hne, hd]⟩

theorem createFile_eq_ok {c : FileData} : fs.createFile path c = .ok fs' ↔
    fs.Vacant path ∧
      (∀ o, fs'.node o = if o = path then some (.file fs.fresh) else fs.node o) ∧
      fs'.data = (fun o => if o = fs.fresh then c else fs.data o) ∧
      fs'.fresh = fs.fresh + 1 :=
  createEntry_eq_ok

variable {source s target t : Path}

theorem link_eq_ok (h : fs.link s t = .ok fs') :
    ∃ en, (∀ o, fs'.node o = if o = t then some en else fs.node o) ∧
      fs'.data = fs.data ∧ fs'.fresh = fs.fresh := by
  unfold link at h
  split at h
  · cases h
  · cases h
  · exact ⟨_, (createEntry_eq_ok.1 h).2⟩
  · exact ⟨_, (createEntry_eq_ok.1 h).2⟩

theorem link_file_eq_ok {i : Nat}
    (hs : fs.node s = some (.file i)) : fs.link s t = .ok fs' ↔
      fs.Vacant t ∧
        (∀ o, fs'.node o = if o = t then some (.file i) else fs.node o) ∧
        fs'.data = fs.data ∧ fs'.fresh = fs.fresh := by
  unfold link
  split
  · rename_i hn
    rw [hs] at hn
    cases hn
  · rename_i hd
    rw [hs] at hd
    cases hd
  · rename_i hl
    rw [hs] at hl
    cases hl
  · rename_i f hf
    obtain rfl : i = f := Node.file.inj (Option.some.inj (hs.symm.trans hf))
    exact createEntry_eq_ok

theorem exists_unlink {en : Node} (h : fs.node path = some en)
    (hd : ¬ fs.IsDirectory path) : ∃ fs', fs.unlink path = .ok fs' := by
  have hne : path ≠ [] := by
    rintro rfl
    exact hd fs.root
  have hc : fs.Childless path := childless_iff.2 fun b hb hne =>
    node_below_eq_none hb (Ne.symm hne) hd
  refine ⟨fs.erase path hne hc, ?_⟩
  unfold unlink
  cases en with
  | directory mode => exact absurd ⟨mode, h⟩ hd
  | file | symlink => simp only [h, dif_pos (And.intro hne hc)]

/-- What a call that removes one name did. -/
structure Removed (fs fs' : FileSystem) (path : Path) : Prop where
  node : ∀ other, fs'.node other = if other = path then none else fs.node other
  data : fs'.data = fs.data
  fresh : fs'.fresh = fs.fresh

theorem unlink_eq_ok (h : fs.unlink path = .ok fs') :
    (∃ en, fs.node path = some en) ∧ ¬ fs.IsDirectory path ∧ Removed fs fs' path := by
  unfold unlink at h
  split at h
  · cases h
  · cases h
  · rename_i en he hn
    split_ifs at h
    cases h
    refine ⟨⟨en, hn⟩, fun ⟨mode, hm⟩ => he mode ?_, fun _ => rfl, rfl, rfl⟩
    exact Option.some.inj (hn.symm.trans hm)

theorem exists_rmdir (h : fs.IsDirectory path) (hne : path ≠ []) (hc : fs.Childless path) :
    ∃ fs', fs.rmdir path = .ok fs' := by
  obtain ⟨_, hm⟩ := h
  refine ⟨fs.erase path hne hc, ?_⟩
  simp only [rmdir, hm, dif_pos (And.intro hne hc)]

theorem rmdir_eq_ok (h : fs.rmdir path = .ok fs') :
    fs.IsDirectory path ∧ path ≠ [] ∧ fs.Childless path ∧ Removed fs fs' path := by
  unfold rmdir at h
  split at h
  · cases h
  · rename_i mode hm
    split_ifs at h with he
    cases h
    exact ⟨⟨mode, hm⟩, he.1, he.2, fun _ => rfl, rfl, rfl⟩
  · cases h

theorem chmod_directory {old : Nat} (h : fs.node path = some (.directory old)) :
    fs.chmod path mode = .ok (fs.setDirectoryMode path mode ⟨old, h⟩) := by
  unfold chmod
  split <;> simp_all

theorem chmod_file {i : Nat} (h : fs.node path = some (.file i)) :
    fs.chmod path mode = .ok (fs.setData i { fs.data i with mode := mode }) := by
  unfold chmod
  split <;> simp_all

/-- What a rename that moves something did. -/
structure Moved (fs fs' : FileSystem) (source target : Path) : Prop where
  source_ne : source ≠ []
  target_ne : target ≠ []
  directory : fs.IsDirectory target.dropLast
  apart : ¬ source <+: target
  node : ∀ other, fs'.node other =
    if target <+: other then fs.node (movedFrom source target other)
    else if source <+: other then none else fs.node other
  data : fs'.data = fs.data
  fresh : fs'.fresh = fs.fresh

theorem rename_eq_ok : fs.rename s t = .ok fs' ↔
    ∃ m, fs.node s = some m ∧ s ≠ [] ∧ t ≠ [] ∧
      ((s = t ∨ fs.SameFile s t) ∧ fs' = fs ∨
        ¬ (s = t ∨ fs.SameFile s t) ∧ fs.replaceable m t = .ok () ∧ Moved fs fs' s t) := by
  unfold rename
  cases hso : fs.node s with
  | none => simp
  | some m =>
    by_cases hb : s = [] ∨ t = []
    · simp only [if_pos hb]
      refine ⟨(nofun), fun ⟨_, _, hs, ht, _⟩ => ?_⟩
      exact (hb.elim hs ht).elim
    · obtain ⟨hs, ht⟩ := not_or.1 hb
      by_cases hsa : s = t ∨ fs.SameFile s t
      · simp [hsa, hs, ht, eq_comm]
      · simp only [if_neg hb, if_neg hsa]
        by_cases h : s ≠ [] ∧ t ≠ [] ∧ fs.IsDirectory t.dropLast ∧ ¬ s <+: t
        · rw [dif_pos h]
          cases hr : fs.replaceable m t with
          | error => simp [bind, Except.bind, hsa, hr]
          | ok =>
            simp only [bind, Except.bind, pure, Except.pure, Except.ok.injEq, eq_iff_node]
            constructor
            · rintro ⟨hn, hd, hf⟩
              exact ⟨m, rfl, hs, ht, .inr ⟨hsa, hr, ⟨hs, ht, h.2.2.1, h.2.2.2, hn, hd, hf⟩⟩⟩
            · rintro ⟨_, _, _, _, ⟨ha, _⟩ | ⟨_, _, hm⟩⟩
              · exact absurd ha hsa
              · exact ⟨hm.node, hm.data, hm.fresh⟩
        · rw [dif_neg h]
          constructor
          · intro hall
            split_ifs at hall
          · rintro ⟨_, _, _, _, ⟨ha, _⟩ | ⟨_, _, hm⟩⟩
            · exact absurd ha hsa
            · exact absurd ⟨hs, ht, hm.directory, hm.apart⟩ h

end

end FileSystem

end Chevalier.Posix
