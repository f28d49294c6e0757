/-
Module: UCache.Core.World
Purpose: One key's entry shared by any number of handles in any number of processes: the names and
  inodes on disk, the handles being opened or in use, and every step one of them, the evictor or a
  crash can take.
Trusted boundary: none
Main exports: Slot, World, WorldAct
-/
import UCache.Core.EntryMachine

namespace UCache

open Lib

/-- `ftruncate` to `n` bytes: what is cut off is gone, what is added reads as zeros. -/
def DataFile.resize (d : DataFile) (n : Nat) : DataFile :=
  { d with
    size := n
    byte := fun k => if k < n ∧ k < d.size then d.byte k else 0 }

/-- How far `open` has got: its two loads of the sidecar, the second half of the truncation and the
store of the empty sidecar. -/
inductive OpenPhase where
  | load
  | relock
  | grow
  | store
deriving DecidableEq, Repr

/-- A place for a handle.  `v` is what the handle was opened for and `ino` what its descriptor
refers to. -/
inductive Slot where
  | closed
  | opening (cfg : Config) (v : Validators) (ino : Nat) (phase : OpenPhase)
  | live (v : Validators) (ino : Nat) (e : FileEntry) (threads : Nat → List Frame)

/-- Everything there is of one key.  The locks are left out: a step may come between any two steps
of another handle.  `stored` is a ghost: every sidecar image there has been. -/
structure World where
  key : Bytes
  slots : Nat → Slot := fun _ => .closed
  inode : Nat → DataFile := fun _ => DataFile.truncate 0
  path : Option Nat := none
  nextIno : Nat := 0
  sidecar : Option MetaData := none
  stored : List MetaData := []

/-- What can happen: the steps of `open`, a step of a thread of a handle, the end of a handle (by
`close` or with its process), an eviction's two unlinks, and a power loss, which leaves any bytes in
`.data` and an earlier sidecar or none. -/
inductive WorldAct where
  | openEntry (h : Nat) (cfg : Config) (v : Validators)
  | openStep (h : Nat) (c : Choice)
  | act (h : Nat) (a : MachineAct)
  | close (h : Nat)
  | unlinkData
  | unlinkMeta
  | powerLoss (inode : Nat → DataFile) (image : Option Nat)

namespace World

/-- Replace the sidecar. -/
def store (w : World) (m : MetaData) : World :=
  { w with sidecar := some m, stored := m :: w.stored }

/-- A handle and the disk as its descriptor shows it. -/
def machine (w : World) (ino : Nat) (e : FileEntry) (threads : Nat → List Frame) : Machine :=
  { e := e
    disk :=
      { sidecar := w.sidecar
        data := w.inode ino
        linked := decide (w.path = some ino) }
    threads := threads }

/-- Put back what a step of the handle did. -/
def putBack (w : World) (h : Nat) (v : Validators) (ino : Nat) (s : Machine) : World :=
  { w with
    slots := Function.update w.slots h (.live v ino s.e s.threads)
    inode := Function.update w.inode ino s.disk.data
    sidecar := s.disk.sidecar
    stored := s.disk.sidecar.toList ++ w.stored }

/-- [SRC FileEntry.cc:57-60] `O_CREAT`: the file at the path, or a new one. -/
def openData (w : World) (h : Nat) (cfg : Config) (v : Validators) : World :=
  match w.path with
  | some ino => { w with slots := Function.update w.slots h (.opening cfg v ino .load) }
  | none =>
      { w with
        slots := Function.update w.slots h (.opening cfg v w.nextIno .load)
        inode := Function.update w.inode w.nextIno (DataFile.truncate 0)
        path := some w.nextIno
        nextIno := w.nextIno + 1 }

/-- [SRC FileEntry.cc:61-113] The steps of `open` past its descriptor. -/
def openNext (w : World) (h : Nat) (c : Choice) (cfg : Config) (v : Validators) (ino : Nat) :
    OpenPhase → World
  | .load =>
      match FileEntry.openAdopt cfg w.key v w.sidecar with
      | some e => { w with slots := Function.update w.slots h (.live v ino e fun _ => []) }
      | none => { w with slots := Function.update w.slots h (.opening cfg v ino .relock) }
  | .relock =>
      match FileEntry.openAdopt cfg w.key v w.sidecar with
      | some e => { w with slots := Function.update w.slots h (.live v ino e fun _ => []) }
      | none =>
          if c.ok then
            { w with
              slots := Function.update w.slots h (.opening cfg v ino .grow)
              inode := Function.update w.inode ino ((w.inode ino).resize 0) }
          else { w with slots := Function.update w.slots h .closed }
  | .grow =>
      if c.ok then
        { w with
          slots := Function.update w.slots h (.opening cfg v ino .store)
          inode := Function.update w.inode ino ((w.inode ino).resize v.originSize) }
      else { w with slots := Function.update w.slots h .closed }
  | .store =>
      let e := FileEntry.openFresh cfg w.key v c.now c.ok
      let w := if c.ok then w.store e.meta_ else w
      { w with slots := Function.update w.slots h (.live v ino e fun _ => []) }

def step (w : World) : WorldAct → Option World
  | .openEntry h cfg v =>
      match w.slots h with
      | .closed => some (w.openData h cfg v)
      | _ => none
  | .openStep h c =>
      match w.slots h with
      | .opening cfg v ino phase => some (w.openNext h c cfg v ino phase)
      | _ => none
  | .act h a =>
      match w.slots h with
      | .live v ino e threads =>
          ((w.machine ino e threads).step a).map (w.putBack h v ino)
      | _ => none
  | .close h => some { w with slots := Function.update w.slots h .closed }
  | .unlinkData => some { w with path := none }
  | .unlinkMeta => some { w with sidecar := none }
  | .powerLoss inode image =>
      some { w with
        slots := fun _ => .closed
        inode := inode
        sidecar := image.bind fun k => w.stored[k]? }

theorem open_inv {w w' : World} {h : Nat} {cfg : Config} {v : Validators}
    (hs : w.step (.openEntry h cfg v) = some w') : w' = w.openData h cfg v := by
  simp only [step] at hs
  split at hs
  · simpa using hs.symm
  · simp at hs

theorem openStep_inv {w w' : World} {h : Nat} {c : Choice}
    (hs : w.step (.openStep h c) = some w') :
    ∃ cfg v ino phase, w.slots h = .opening cfg v ino phase ∧
      w' = w.openNext h c cfg v ino phase := by
  simp only [step] at hs
  split at hs
  · rename_i cfg v ino phase hslot
    exact ⟨cfg, v, ino, phase, hslot, by simpa using hs.symm⟩
  · simp at hs

theorem act_inv {w w' : World} {h : Nat} {a : MachineAct} (hs : w.step (.act h a) = some w') :
    ∃ v ino e threads s, w.slots h = .live v ino e threads ∧
      (w.machine ino e threads).step a = some s ∧ w' = w.putBack h v ino s := by
  simp only [step] at hs
  split at hs
  · rename_i v ino e threads hslot
    obtain ⟨s, hstep, rfl⟩ := Option.map_eq_some_iff.1 hs
    exact ⟨v, ino, e, threads, s, hslot, hstep, rfl⟩
  · simp at hs

end World

end UCache
