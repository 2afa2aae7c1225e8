import LightweightOs.Kernel

/-!
# vidmap

The user page at `VID_MEM` is backed by the display for the displayed terminal
and by the terminal's background page otherwise.  The store of its address
through the pointer of the caller comes last, and `UserStores` says where it
faults.
-/

namespace LightweightOs

/-- A word stored in user memory: its address and its value. -/
structure UserStore where
  address : Word
  value : Word

namespace Kernel

/-- `VID_MEM_PHYSICAL / 4096` for the displayed terminal, and the background
page behind it for the others. -/
def vidmapAddress (s : Kernel) (curProcessLocal : Int) : Word :=
  if s.tty.curTerminal = curProcessLocal then vidMemPhysical / 4096#32
  else vidMemPhysical / 4096#32 + BitVec.ofInt 32 curProcessLocal

def vidmap (s : Kernel) (frame : Frame) (locals : Locals) (screenStart : Word) :
    Option (Kernel × Int × Option UserStore) :=
  (getBaseProcessPcb s.pcb (currentPcb frame.esp)).map fun base =>
    let curProcessLocal := (s.pcb base).processId
    if screenStart = 0 then (s, -1, none)
    else if userStack < screenStart ∨ screenStart < userStack - 0x400000#32 then
      (s, -1, none)
    else
      ({ s with
          pdt := assign s.pdt vidPdtIdx
            (vidmapTableEntry locals.vidmem s.ptVidmapFrame)
          ptVidmap := assign s.ptVidmap 0
            (videoPageEntry locals.vidmemPt (s.vidmapAddress curProcessLocal)) },
        0, some ⟨screenStart, vidMem⟩)

/-- The state after `vidmap` has mapped the page of the terminal `t`. -/
def mapVideo (s : Kernel) (locals : Locals) (t : Int) : Kernel :=
  { s with
    pdt := assign s.pdt vidPdtIdx (vidmapTableEntry locals.vidmem s.ptVidmapFrame)
    ptVidmap := assign s.ptVidmap 0
      (videoPageEntry locals.vidmemPt (s.vidmapAddress t)) }

/-- `vidmap` fails and changes nothing, or maps the page of the terminal whose
base shell it finds. -/
theorem vidmap_cases {s next : Kernel} {frame : Frame} {locals : Locals}
    {screenStart : Word} {value : Int} {store : Option UserStore}
    (maps : s.vidmap frame locals screenStart = some (next, value, store)) :
    next = s ∧ value = -1 ∨
      ∃ base, getBaseProcessPcb s.pcb (currentPcb frame.esp) = some base ∧
        next = s.mapVideo locals (s.pcb base).processId ∧ value = 0 := by
  obtain ⟨base, found, result⟩ := Option.map_eq_some_iff.mp maps
  split at result
  · cases result
    exact .inl ⟨rfl, rfl⟩
  · split at result
    · cases result
      exact .inl ⟨rfl, rfl⟩
    · cases result
      exact .inr ⟨base, found, rfl, rfl⟩

theorem vidmap_rtc {s next : Kernel} {frame : Frame} {locals : Locals}
    {screenStart : Word} {value : Int} {store : Option UserStore}
    (maps : s.vidmap frame locals screenStart = some (next, value, store)) :
    next.rtc = s.rtc := by
  rcases vidmap_cases maps with ⟨same, _⟩ | ⟨base, _, mapped, _⟩
  · rw [same]
  · rw [mapped]
    rfl

end Kernel

end LightweightOs
