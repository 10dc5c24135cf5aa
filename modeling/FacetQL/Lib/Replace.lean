import Mathlib

/-!
# Replacing a file

The contents of a file are replaced by writing them to another file, which is then
renamed to the first one. What a process sees is not what is left after a crash: of
a file, at least what has been flushed is left, and a name can stand for what it
stood for before a rename, until the directory is flushed.
-/

variable {β : Type}

/-- A file: its contents, and how much of them has been flushed. -/
structure Inode (β : Type) where
  bytes : List β
  stable : Nat

/-- What a crash can leave of a file. -/
def Inode.Survives (file : Inode β) (bytes : List β) : Prop :=
  ∃ n, file.stable ≤ n ∧ bytes = file.bytes.take n

/-- All of a file that has been flushed is left. -/
theorem Inode.Survives.eq {file : Inode β} {bytes : List β} (h : file.Survives bytes)
    (hstable : file.bytes.length ≤ file.stable) : bytes = file.bytes := by
  obtain ⟨n, hn, rfl⟩ := h
  exact List.take_of_length_le (hstable.trans hn)

/-- A file, what its name stood for before an unflushed rename, and a temporary file. -/
structure Directory (β : Type) where
  file : Inode β
  previous : Option (Inode β)
  temp : Option (Inode β)

/-- What a crash can leave under the name of the file. -/
def Directory.Survives (d : Directory β) (bytes : List β) : Prop :=
  d.file.Survives bytes ∨ ∃ file ∈ d.previous, file.Survives bytes

/-- The steps of replacing a file by way of a temporary one. -/
inductive FileOp (β : Type)
  | create
  | write (bytes : List β)
  | sync
  | rename
  | syncDirectory

/-- The effect of a step. -/
def FileOp.run (d : Directory β) : FileOp β → Directory β
  | create => { d with temp := some ⟨[], 0⟩ }
  | write bytes => { d with temp := d.temp.map fun t => { t with bytes := t.bytes ++ bytes } }
  | sync => { d with temp := d.temp.map fun t => { t with stable := t.bytes.length } }
  | rename =>
    match d.temp with
    | some t => ⟨t, some d.file, none⟩
    | none => d
  | syncDirectory => { d with previous := none }

/-- The effect of a list of steps. -/
def runOps (ops : List (FileOp β)) (d : Directory β) : Directory β := ops.foldl FileOp.run d

/-- The directory at some point of a list of steps, a write being cut anywhere. -/
inductive Reaches : List (FileOp β) → Directory β → Directory β → Prop
  | here {ops : List (FileOp β)} {d : Directory β} : Reaches ops d d
  | next {op : FileOp β} {ops : List (FileOp β)} {d d' : Directory β}
      (h : Reaches ops (op.run d) d') : Reaches (op :: ops) d d'
  | part {bytes : List β} {ops : List (FileOp β)} {d : Directory β} (n : Nat) :
      Reaches (.write bytes :: ops) d ((FileOp.write (bytes.take n)).run d)

/-- The steps that replace the contents of the file. -/
def replaceOps (bytes : List β) : List (FileOp β) :=
  [.create, .write bytes, .sync, .rename, .syncDirectory]

theorem replace_run (file : Inode β) (temp : Option (Inode β)) (bytes : List β) :
    runOps (replaceOps bytes) ⟨file, none, temp⟩ = ⟨⟨bytes, bytes.length⟩, none, none⟩ := by
  simp [runOps, replaceOps, FileOp.run]

/-- At any step, the name stands for the old file, or for the new one, all of it flushed. -/
theorem replace_reaches {file : Inode β} {temp : Option (Inode β)} {bytes : List β} {d : Directory β}
    (h : Reaches (replaceOps bytes) ⟨file, none, temp⟩ d) :
    d.file = file ∧ d.previous = none ∨
      d.file = ⟨bytes, bytes.length⟩ ∧ ∀ f ∈ d.previous, f = file := by
  cases h with
  | here => exact .inl ⟨rfl, rfl⟩
  | next h =>
    cases h with
    | here | part n => exact .inl ⟨rfl, rfl⟩
    | next h =>
      cases h with
      | here => exact .inl ⟨rfl, rfl⟩
      | next h =>
        cases h with
        | here => exact .inl ⟨rfl, rfl⟩
        | next h =>
          cases h with
          | here =>
            -- Renamed, and the directory not yet flushed.
            refine .inr ⟨rfl, fun f hf => ?_⟩
            cases hf
            rfl
          | next h =>
            cases h with
            | here =>
              refine .inr ⟨rfl, fun f hf => ?_⟩
              cases hf

/-- A crash leaves what it could have left of the old file, or all of the new one. -/
theorem replace_crash {file : Inode β} {temp : Option (Inode β)} {bytes left : List β}
    {d : Directory β} (hreach : Reaches (replaceOps bytes) ⟨file, none, temp⟩ d)
    (hleft : d.Survives left) : file.Survives left ∨ left = bytes := by
  rcases replace_reaches hreach with ⟨hfile, hprevious⟩ | ⟨hfile, hprevious⟩
  · rw [Directory.Survives, hfile, hprevious] at hleft
    rcases hleft with h | ⟨f, hf, -⟩
    · exact .inl h
    · cases hf
  · rcases hleft with h | ⟨f, hf, h⟩
    · rw [hfile] at h
      exact .inr (h.eq le_rfl)
    · exact .inl (hprevious f hf ▸ h)
