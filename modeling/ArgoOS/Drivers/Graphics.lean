import ArgoOS.Drivers.Serial

set_option autoImplicit false

/-!
# The framebuffer

`graphics.c`: the words that the drawing functions store, as addresses and colours in order,
and the pages that `graphics_init` maps for them.
-/

namespace ArgoOS.Graphics

open Text List UInt32 Int32

-- The fields of the multiboot structure that are read. The pitch is not among them.
structure MultibootInfo where
  flags : UInt32
  framebufferAddrLow : UInt32
  framebufferWidth : UInt32
  framebufferHeight : UInt32
  framebufferBpp : UInt8
deriving DecidableEq, Repr

structure Screen where
  framebuffer : UInt32
  screenWidth : Int32
  screenHeight : Int32
  screenBpp : Int32
deriving DecidableEq, Repr

structure Devices where
  bgaId : UInt16
  config : UInt32 → UInt32

-- `pages` are the addresses that `paging_map_page` maps to themselves.
structure Init where
  screen : Screen
  pages : List UInt32
  serial : List UInt8
  ports : List (UInt16 × UInt16)

section

def pciConfigRead (devices : Devices) (bus device func offset : UInt32) : UInt32 :=
  devices.config ((1 : UInt32) <<< 31 ||| bus <<< 16 ||| device <<< 11 ||| func <<< 8 ||| offset &&& 0xFC)

def putNibbles (value : UInt32) : List UInt8 :=
  ([28, 24, 20, 16, 12, 8, 4, 0] : List UInt32).map fun i =>
    let nibble := (value >>> i &&& 0xF).toNat
    if nibble < 10 then UInt8.ofNat (48 + nibble) else UInt8.ofNat (65 + nibble - 10)

def findBgaFramebuffer (devices : Devices) : UInt32 × List UInt8 :=
  let slots := (List.range 8).flatMap fun bus => (List.range 32).map fun dev =>
    (UInt32.ofNat bus, UInt32.ofNat dev)
  let isBga := fun (bus, dev) =>
    let id := pciConfigRead devices bus dev 0 0
    id &&& 0xFFFF = 0x1234 ∧ id >>> 16 &&& 0xFFFF = 0x1111
  match slots.find? isBga with
  | none => (0xE0000000, [])
  | some (bus, dev) =>
    let bar0 := pciConfigRead devices bus dev 0 0x10 &&& ~~~0xF
    (bar0, ascii "Found Bochs VGA BAR0=0x" ++ putNibbles bar0 ++ Serial.serialPuts [10])

def bgaSetMode (w h bpp : UInt16) : List (UInt16 × UInt16) :=
  [(4, 0), (1, w), (2, h), (3, bpp), (4, 0x41)].flatMap fun (index, value) =>
    [(0x01CE, index), (0x01CF, value)]

-- The part of `graphics_init` that both ways of finding the framebuffer share.
def mapFramebuffer (screen : Screen) (serial : List UInt8) (ports : List (UInt16 × UInt16)) : Init :=
  if screen.framebuffer = 0 then
    ⟨screen, [], serial ++ Serial.serialPuts (ascii "ERROR: Framebuffer address is NULL\n"), ports⟩
  else
    let fbSize := screen.screenWidth.toUInt32 * screen.screenHeight.toUInt32 *
      (screen.screenBpp / 8).toUInt32
    let numPages := (fbSize + 0xFFF) / 0x1000
    let pages := (List.range numPages.toNat).map fun i =>
      screen.framebuffer + UInt32.ofNat i * 0x1000
    ⟨screen, pages, serial ++ ascii "FB=0x" ++ putNibbles screen.framebuffer ++ Serial.serialPuts [10],
      ports⟩

def graphicsInit (screen : Screen) (devices : Devices) : Option MultibootInfo → Init
  | none => ⟨screen, [], Serial.serialPuts
      (ascii "ERROR: No Multiboot info provided to graphics_init\n"), []⟩
  | some mbInfo =>
    if mbInfo.flags &&& (1 : UInt32) <<< 12 = 0 then
      let serial := Serial.serialPuts (ascii "ERROR: No framebuffer info in Multiboot structure\n")
      if devices.bgaId < 0xB0C0 ∨ 0xB0C5 < devices.bgaId then ⟨screen, [], serial, [(0x01CE, 0)]⟩
      else
        let (framebuffer, found) := findBgaFramebuffer devices
        mapFramebuffer ⟨framebuffer, 800, 600, 32⟩ (serial ++ found)
          ((0x01CE, 0) :: bgaSetMode 800 600 32)
    else mapFramebuffer ⟨mbInfo.framebufferAddrLow, mbInfo.framebufferWidth.toInt32,
      mbInfo.framebufferHeight.toInt32, mbInfo.framebufferBpp.toUInt32.toInt32⟩
      (ascii "Multiboot Graphics initialized: ") []

end

section

variable (font8x8Basic : Nat → Nat → UInt8) (screen : Screen)

abbrev Write := UInt32 × UInt32

def Screen.address (index : Int32) : UInt32 := screen.framebuffer + 4 * index.toUInt32

def graphicsPutPixel (x y : Int32) (color : UInt32) : List Write :=
  if x < 0 ∨ screen.screenWidth ≤ x ∨ y < 0 ∨ screen.screenHeight ≤ y ∨ screen.framebuffer = 0 then []
  else [(screen.address (y * screen.screenWidth + x), color)]

-- There is no test of the framebuffer here.
def graphicsDrawRect (x y w h : Int32) (color : UInt32) : List Write :=
  (List.range h.toNatClampNeg).flatMap fun j =>
    let py := y + Int32.ofNat j
    if py < 0 ∨ screen.screenHeight ≤ py then []
    else (List.range w.toNatClampNeg).flatMap fun i =>
      let px := x + Int32.ofNat i
      if px < 0 ∨ screen.screenWidth ≤ px then []
      else [(screen.address (py * screen.screenWidth + px), color)]

def graphicsClear (color : UInt32) : List Write :=
  if screen.framebuffer = 0 then []
  else
    let total := screen.screenWidth * screen.screenHeight
    (List.range total.toNatClampNeg).map fun i => (screen.address (Int32.ofNat i), color)

def graphicsDrawChar (x y : Int32) (c : UInt8) (color : UInt32) : List Write :=
  if 128 ≤ c then []
  else (List.range 8).flatMap fun j => (List.range 8).flatMap fun i =>
    if (font8x8Basic c.toNat j).toNat.testBit i then
      graphicsPutPixel screen (x + Int32.ofNat i) (y + Int32.ofNat j) color
    else []

def graphicsDrawString (x y : Int32) (str : List UInt8) (color : UInt32) : List Write :=
  match str with
  | [] => []
  | c :: str =>
    graphicsDrawChar font8x8Basic screen x y c color ++ graphicsDrawString (x + 8) y str color

inductive DrawCall where
  | putPixel (x y : Int32) (color : UInt32)
  | drawRect (x y w h : Int32) (color : UInt32)
  | clear (color : UInt32)
  | drawString (x y : Int32) (str : List UInt8) (color : UInt32)

def DrawCall.writes : DrawCall → List Write
  | .putPixel x y color => graphicsPutPixel screen x y color
  | .drawRect x y w h color => graphicsDrawRect screen x y w h color
  | .clear color => graphicsClear screen color
  | .drawString x y str color => graphicsDrawString font8x8Basic screen x y str color

end

variable {px py : Int32} {write : Write}

variable {color : UInt32}

section

variable {screen : Screen}

def OnScreen (screen : Screen) (px py : Int32) : Prop :=
  (0 ≤ px ∧ px < screen.screenWidth) ∧ 0 ≤ py ∧ py < screen.screenHeight

def wordIndex (screen : Screen) (px py : Int32) : Nat :=
  py.toNatClampNeg * screen.screenWidth.toNatClampNeg + px.toNatClampNeg

def wordAddress (screen : Screen) (k : Nat) : UInt32 := screen.framebuffer + 4 * UInt32.ofNat k

def Screen.pixelAddress (screen : Screen) (px py : Int32) : UInt32 :=
  screen.address (py * screen.screenWidth + px)

theorem toNat_lt_of_lt {a b : Int32} (nonneg : 0 ≤ a) (less : a < b) :
    a.toNatClampNeg < b.toNatClampNeg := by
  have low := le_iff_toInt_le.mp nonneg
  have high := lt_iff_toInt_lt.mp less
  rw [← toNat_toInt, ← toNat_toInt]
  rw [show (0 : Int32).toInt = 0 from rfl] at low
  omega

theorem pixelAddress_word (onScreen : OnScreen screen px py) :
    screen.pixelAddress px py = wordAddress screen (wordIndex screen px py) := by
  obtain ⟨⟨x0, x1⟩, y0, y1⟩ := onScreen
  have width : 0 ≤ screen.screenWidth := Int32.le_of_lt (Int32.lt_of_le_of_lt x0 x1)
  have index : py * screen.screenWidth + px = Int32.ofNat (wordIndex screen px py) := by
    rw [wordIndex, Int32.ofNat_add, Int32.ofNat_mul, ofNat_toNatClampNeg _ y0,
      ofNat_toNatClampNeg _ width, ofNat_toNatClampNeg _ x0]
  rw [Screen.pixelAddress, index]
  rfl

theorem wordIndex_lt (onScreen : OnScreen screen px py) :
    wordIndex screen px py < screen.screenWidth.toNatClampNeg * screen.screenHeight.toNatClampNeg := by
  obtain ⟨⟨x0, x1⟩, y0, y1⟩ := onScreen
  have column := toNat_lt_of_lt x0 x1
  have row := Nat.mul_le_mul_right screen.screenWidth.toNatClampNeg (toNat_lt_of_lt y0 y1)
  rw [wordIndex, Nat.mul_comm screen.screenWidth.toNatClampNeg]
  rw [Nat.succ_mul] at row
  omega

theorem graphicsPutPixel_writes (screen : Screen) (x y : Int32) (color : UInt32) (write : Write) :
    write ∈ graphicsPutPixel screen x y color ↔ screen.framebuffer ≠ 0 ∧ OnScreen screen x y ∧
      write = (screen.pixelAddress x y, color) := by
  unfold graphicsPutPixel OnScreen Screen.pixelAddress
  split
  · next outside =>
    refine iff_of_false not_mem_nil ?_
    rintro ⟨nonzero, ⟨⟨x0, x1⟩, y0, y1⟩, -⟩
    rcases outside with out | out | out | out | out
    · exact Int32.not_lt.mpr x0 out
    · exact Int32.not_lt.mpr out x1
    · exact Int32.not_lt.mpr y0 out
    · exact Int32.not_lt.mpr out y1
    · exact nonzero out
  · next inside =>
    simp only [not_or, Int32.not_lt, Int32.not_le] at inside
    obtain ⟨x0, x1, y0, y1, nonzero⟩ := inside
    simp [x0, x1, y0, y1, nonzero]

theorem graphicsDrawRect_writes (screen : Screen) (x y w h : Int32) (color : UInt32) (write : Write) :
    write ∈ graphicsDrawRect screen x y w h color ↔
      ∃ j < h.toNatClampNeg, ∃ i < w.toNatClampNeg,
        OnScreen screen (x + Int32.ofNat i) (y + Int32.ofNat j) ∧
        write = (screen.pixelAddress (x + Int32.ofNat i) (y + Int32.ofNat j), color) := by
  simp only [graphicsDrawRect, mem_flatMap, mem_range, OnScreen, Screen.pixelAddress]
  refine exists_congr fun j => and_congr_right fun _ => ?_
  split
  · next outside =>
    refine iff_of_false not_mem_nil ?_
    rintro ⟨i, -, ⟨-, y0, y1⟩, -⟩
    exact outside.elim (Int32.not_lt.mpr y0) (fun out => Int32.not_lt.mpr out y1)
  · next inside =>
    simp only [not_or, Int32.not_lt, Int32.not_le] at inside
    simp only [mem_flatMap, mem_range]
    refine exists_congr fun i => and_congr_right fun _ => ?_
    split
    · next outside =>
      refine iff_of_false not_mem_nil ?_
      rintro ⟨⟨⟨x0, x1⟩, -⟩, -⟩
      exact outside.elim (Int32.not_lt.mpr x0) (fun out => Int32.not_lt.mpr out x1)
    · next inside' =>
      simp only [not_or, Int32.not_lt, Int32.not_le] at inside'
      simp [inside, inside']

theorem graphicsDrawString_writes {font8x8Basic : Nat → Nat → UInt8} {screen : Screen} {x y : Int32}
    {str : List UInt8} (member : write ∈ graphicsDrawString font8x8Basic screen x y str color) :
    ∃ px py, write ∈ graphicsPutPixel screen px py color := by
  induction str generalizing x with
  | nil => contradiction
  | cons c str ih =>
    rcases mem_append.mp member with first | rest
    · unfold graphicsDrawChar at first
      split at first
      · contradiction
      · obtain ⟨j, -, inRow⟩ := mem_flatMap.mp first
        obtain ⟨i, -, inCell⟩ := mem_flatMap.mp inRow
        split at inCell
        · exact ⟨_, _, inCell⟩
        · contradiction
    · exact ih rest

end

section

def store (writes : List Write) (mem : UInt32 → UInt32) : UInt32 → UInt32 :=
  writes.foldl (fun mem write => Function.update mem write.1 write.2) mem

theorem store_miss {writes : List Write} {a : UInt32} (miss : ∀ write ∈ writes, write.1 ≠ a)
    (mem : UInt32 → UInt32) : store writes mem a = mem a := by
  induction writes generalizing mem with
  | nil => rfl
  | cons write writes ih =>
    rw [forall_mem_cons] at miss
    exact (ih miss.2 _).trans (Function.update_of_ne (Ne.symm miss.1) _ _)

theorem store_hit {writes : List Write} {a : UInt32} (colored : ∀ write ∈ writes, write.2 = color)
    (hit : ∃ write ∈ writes, write.1 = a) (mem : UInt32 → UInt32) : store writes mem a = color := by
  induction writes generalizing mem with
  | nil => simp at hit
  | cons write writes ih =>
    rw [forall_mem_cons] at colored
    by_cases again : ∃ write ∈ writes, write.1 = a
    · exact ih colored.2 again _
    · have first : write.1 = a := by
        obtain ⟨other, member, same⟩ := hit
        rcases mem_cons.mp member with rfl | later
        · exact same
        · exact absurd ⟨other, later, same⟩ again
      refine (store_miss (fun other later same => again ⟨other, later, same⟩) _).trans ?_
      rw [← first]
      exact (Function.update_self _ _ _).trans colored.1

theorem store_congr {first second : List Write} (colored : ∀ write ∈ first, write.2 = color)
    (same : ∀ write, write ∈ first ↔ write ∈ second) (mem : UInt32 → UInt32) :
    store first mem = store second mem := by
  funext a
  by_cases hit : ∃ write ∈ first, write.1 = a
  · rw [store_hit colored hit, store_hit (fun write member => colored write ((same write).mpr member))
      (hit.imp fun write both => ⟨(same write).mp both.1, both.2⟩)]
  · have miss : ∀ write ∈ first, write.1 ≠ a := fun write member isA => hit ⟨write, member, isA⟩
    rw [store_miss miss, store_miss fun write member => miss write ((same write).mpr member)]

def InRect (x y w h px py : Int32) : Prop :=
  (x.toInt ≤ px.toInt ∧ px.toInt < x.toInt + w.toInt) ∧
    y.toInt ≤ py.toInt ∧ py.toInt < y.toInt + h.toInt

theorem offset_iff {x w : Int32} (fits : x.toInt + w.toInt < 2 ^ 31) (px : Int32) :
    (∃ i < w.toNatClampNeg, x + Int32.ofNat i = px) ↔
      x.toInt ≤ px.toInt ∧ px.toInt < x.toInt + w.toInt := by
  have width := toNat_toInt w
  have low := le_toInt x
  have high := toInt_lt w
  have offset (i : Nat) (below : i < w.toNatClampNeg) :
      (x + Int32.ofNat i).toInt = x.toInt + i := by
    rw [toInt_add, toInt_ofNat_of_lt (by omega), Int.bmod_eq_of_le (by omega) (by omega)]
  constructor
  · rintro ⟨i, below, rfl⟩
    rw [offset i below]
    omega
  · rintro ⟨left, right⟩
    refine ⟨(px.toInt - x.toInt).toNat, by omega, Int32.toInt_inj.mp ?_⟩
    rw [offset _ (by omega)]
    omega

variable {screen : Screen} {x y w h : Int32}

theorem graphicsDrawRect_rect (fitsX : x.toInt + w.toInt < 2 ^ 31) (fitsY : y.toInt + h.toInt < 2 ^ 31)
    (color : UInt32) (write : Write) : write ∈ graphicsDrawRect screen x y w h color ↔
      ∃ px py, InRect x y w h px py ∧ OnScreen screen px py ∧
        write = (screen.pixelAddress px py, color) := by
  rw [graphicsDrawRect_writes]
  constructor
  · rintro ⟨j, inColumn, i, inRow, onScreen, rfl⟩
    exact ⟨_, _, ⟨(offset_iff fitsX _).mp ⟨i, inRow, rfl⟩, (offset_iff fitsY _).mp ⟨j, inColumn, rfl⟩⟩,
      onScreen, rfl⟩
  · rintro ⟨px, py, ⟨inRow, inColumn⟩, onScreen, rfl⟩
    obtain ⟨i, below, rfl⟩ := (offset_iff fitsX px).mpr inRow
    obtain ⟨j, below', rfl⟩ := (offset_iff fitsY py).mpr inColumn
    exact ⟨j, below', i, below, onScreen, rfl⟩

theorem pixelAddress_inj (fits : screen.screenWidth.toNatClampNeg *
      screen.screenHeight.toNatClampNeg ≤ 2 ^ 30) {px' py' : Int32}
    (onScreen : OnScreen screen px py) (onScreen' : OnScreen screen px' py')
    (same : screen.pixelAddress px py = screen.pixelAddress px' py') : px = px' ∧ py = py' := by
  have below := wordIndex_lt onScreen
  have below' := wordIndex_lt onScreen'
  rw [pixelAddress_word onScreen, pixelAddress_word onScreen', wordAddress, wordAddress,
    UInt32.add_right_inj] at same
  have index : wordIndex screen px py = wordIndex screen px' py' := by
    have value := congrArg UInt32.toNat same
    rw [UInt32.toNat_mul, UInt32.toNat_mul, toNat_ofNat', toNat_ofNat',
      show UInt32.toNat 4 = 4 from rfl] at value
    omega
  obtain ⟨⟨x0, x1⟩, y0, y1⟩ := onScreen
  obtain ⟨⟨x0', x1'⟩, y0', y1'⟩ := onScreen'
  have column := toNat_lt_of_lt x0 x1
  have column' := toNat_lt_of_lt x0' x1'
  have xs := congrArg (· % screen.screenWidth.toNatClampNeg) index
  simp only [wordIndex, Nat.mul_add_mod_self_right, Nat.mod_eq_of_lt column,
    Nat.mod_eq_of_lt column'] at xs
  have ys : py.toNatClampNeg = py'.toNatClampNeg := by
    rw [wordIndex, wordIndex, xs] at index
    exact Nat.eq_of_mul_eq_mul_right (Nat.zero_lt_of_lt column) (Nat.add_right_cancel index)
  constructor
  · rw [← ofNat_toNatClampNeg px x0, xs, ofNat_toNatClampNeg px' x0']
  · rw [← ofNat_toNatClampNeg py y0, ys, ofNat_toNatClampNeg py' y0']

theorem draw_rect_sets_rectangle (screen : Screen) (nonzero : screen.framebuffer ≠ 0)
    (fits : screen.screenWidth.toNatClampNeg * screen.screenHeight.toNatClampNeg ≤ 2 ^ 30)
    (x y w h : Int32) (fitsX : x.toInt + w.toInt < 2 ^ 31) (fitsY : y.toInt + h.toInt < 2 ^ 31)
    (color : UInt32) (mem : UInt32 → UInt32) :
    (∀ px py, OnScreen screen px py →
      (InRect x y w h px py → store (graphicsDrawRect screen x y w h color) mem
        (screen.pixelAddress px py) = color) ∧
      (¬ InRect x y w h px py → store (graphicsDrawRect screen x y w h color) mem
        (screen.pixelAddress px py) = mem (screen.pixelAddress px py))) ∧
    (∀ a, (∀ px py, OnScreen screen px py → screen.pixelAddress px py ≠ a) →
      store (graphicsDrawRect screen x y w h color) mem a = mem a) ∧
    ∀ points : List (Int32 × Int32), (∀ px py, (px, py) ∈ points ↔ InRect x y w h px py) →
      store (points.flatMap fun (px, py) => graphicsPutPixel screen px py color) mem =
        store (graphicsDrawRect screen x y w h color) mem := by
  have drawn (write : Write) : write ∈ graphicsDrawRect screen x y w h color ↔ _ :=
    graphicsDrawRect_rect fitsX fitsY color write
  have colored : ∀ write ∈ graphicsDrawRect screen x y w h color, write.2 = color := by
    intro write member
    obtain ⟨-, -, -, -, rfl⟩ := (drawn write).mp member
    rfl
  refine ⟨fun px py onScreen => ⟨fun inRect => ?_, fun outside => ?_⟩, fun a offScreen => ?_,
    fun points all => ?_⟩
  · exact store_hit colored ⟨_, (drawn _).mpr ⟨px, py, inRect, onScreen, rfl⟩, rfl⟩ mem
  · refine store_miss (fun write member same => ?_) mem
    obtain ⟨px', py', inRect, onScreen', rfl⟩ := (drawn write).mp member
    obtain ⟨rfl, rfl⟩ := pixelAddress_inj fits onScreen' onScreen same
    exact outside inRect
  · refine store_miss (fun write member same => ?_) mem
    obtain ⟨px, py, -, onScreen, rfl⟩ := (drawn write).mp member
    exact offScreen px py onScreen same
  · refine (store_congr colored (fun write => ?_) mem).symm
    rw [drawn, List.mem_flatMap]
    constructor
    · rintro ⟨px, py, inRect, onScreen, rfl⟩
      exact ⟨(px, py), (all px py).mpr inRect,
        (graphicsPutPixel_writes ..).mpr ⟨nonzero, onScreen, rfl⟩⟩
    · rintro ⟨⟨px, py⟩, member, put⟩
      obtain ⟨-, onScreen, rfl⟩ := (graphicsPutPixel_writes ..).mp put
      exact ⟨px, py, (all px py).mp member, onScreen, rfl⟩

theorem draw_rect_sets_corner :
    let screen : Screen := ⟨0xFD000000, 800, 600, 32⟩
    ∀ mem, store (graphicsDrawRect screen (-2) 597 4 9 7) mem (screen.pixelAddress 1 599) = 7 ∧
      store (graphicsDrawRect screen (-2) 597 4 9 7) mem (screen.pixelAddress 2 599) =
        mem (screen.pixelAddress 2 599) := by
  intro screen mem
  have set := (draw_rect_sets_rectangle screen (by decide) (by decide) (-2) 597 4 9 (by decide)
    (by decide) 7 mem).1
  have onScreen : OnScreen screen 1 599 ∧ OnScreen screen 2 599 := by
    unfold OnScreen
    decide
  have inRect : InRect (-2) 597 4 9 1 599 ∧ ¬ InRect (-2) 597 4 9 2 599 := by
    unfold InRect
    decide
  exact ⟨(set 1 599 onScreen.1).1 inRect.1, (set 2 599 onScreen.2).2 inRect.2⟩

-- On a screen of 32768 x 32769 words the last row begins at the address of the first.
theorem draw_rect_changes_another :
    let screen : Screen := ⟨0xFD000000, 32768, 32769, 32⟩
    OnScreen screen 0 32768 ∧ ¬ InRect 0 0 1 1 0 32768 ∧
      store (graphicsDrawRect screen 0 0 1 1 7) (fun _ => 0) (screen.pixelAddress 0 32768) = 7 := by
  unfold OnScreen InRect
  decide +kernel

end

section

def drawnWords (screen : Screen) : Nat :=
  if 0 < screen.screenWidth ∧ 0 < screen.screenHeight then
    screen.screenWidth.toNatClampNeg * screen.screenHeight.toNatClampNeg
  else (screen.screenWidth * screen.screenHeight).toNatClampNeg

variable {font8x8Basic : Nat → Nat → UInt8} {screen : Screen}

theorem onScreen_words (onScreen : OnScreen screen px py) :
    ∃ k < drawnWords screen, screen.pixelAddress px py = wordAddress screen k := by
  obtain ⟨⟨x0, x1⟩, y0, y1⟩ := id onScreen
  refine ⟨wordIndex screen px py, ?_, pixelAddress_word onScreen⟩
  rw [drawnWords, if_pos ⟨Int32.lt_of_le_of_lt x0 x1, Int32.lt_of_le_of_lt y0 y1⟩]
  exact wordIndex_lt onScreen

theorem toNatClampNeg_ofNat_le (n : Nat) : (Int32.ofNat n).toNatClampNeg ≤ n := by
  have wrapped := Int.bmod_def (n : Int) (2 ^ 32)
  rw [← toNat_toInt, toInt_ofNat', show Int32.size = 2 ^ 32 from rfl]
  split at wrapped <;> omega

-- The product of the sides wraps in `graphics_clear`, but only downwards.
theorem clear_words {i : Nat}
    (inside : i < (screen.screenWidth * screen.screenHeight).toNatClampNeg) :
    i < drawnWords screen := by
  unfold drawnWords
  split
  · next positive =>
    have product : screen.screenWidth * screen.screenHeight = Int32.ofNat
        (screen.screenWidth.toNatClampNeg * screen.screenHeight.toNatClampNeg) := by
      rw [Int32.ofNat_mul, ofNat_toNatClampNeg _ (Int32.le_of_lt positive.1),
        ofNat_toNatClampNeg _ (Int32.le_of_lt positive.2)]
    rw [product] at inside
    exact Nat.lt_of_lt_of_le inside (toNatClampNeg_ofNat_le _)
  · exact inside

theorem writes_words {call : DrawCall} (member : write ∈ call.writes font8x8Basic screen) :
    ∃ k < drawnWords screen, write.1 = wordAddress screen k := by
  cases call with
  | putPixel x y color =>
    obtain ⟨-, onScreen, rfl⟩ := (graphicsPutPixel_writes ..).mp member
    exact onScreen_words onScreen
  | drawRect x y w h color =>
    obtain ⟨j, -, i, -, onScreen, rfl⟩ := (graphicsDrawRect_writes ..).mp member
    exact onScreen_words onScreen
  | clear color =>
    simp only [DrawCall.writes, graphicsClear] at member
    split at member
    · contradiction
    · obtain ⟨i, inside, rfl⟩ := mem_map.mp member
      exact ⟨i, clear_words (mem_range.mp inside), rfl⟩
  | drawString x y str color =>
    obtain ⟨px, py, member⟩ := graphicsDrawString_writes member
    obtain ⟨-, onScreen, rfl⟩ := (graphicsPutPixel_writes ..).mp member
    exact onScreen_words onScreen

theorem ofNat_inside {n : Nat} {bound : Int32} (below : n < bound.toNatClampNeg) :
    0 ≤ Int32.ofNat n ∧ Int32.ofNat n < bound ∧ (Int32.ofNat n).toNatClampNeg = n := by
  have limit := toInt_lt bound
  have same := toNat_toInt bound
  have value : (Int32.ofNat n).toInt = n := toInt_ofNat_of_lt (by omega)
  refine ⟨?_, ?_, by rw [← toNat_toInt, value, Int.toNat_natCast]⟩
  · rw [le_iff_toInt_le, value]
    exact Int.natCast_nonneg n
  · rw [lt_iff_toInt_lt, value]
    omega

theorem word_drawn (font8x8Basic : Nat → Nat → UInt8) (nonzero : screen.framebuffer ≠ 0) {k : Nat} (inside : k < drawnWords screen) :
    ∃ call : DrawCall, ∃ write ∈ call.writes font8x8Basic screen, write.1 = wordAddress screen k := by
  unfold drawnWords at inside
  split at inside
  · have wide : 0 < screen.screenWidth.toNatClampNeg := 
      Nat.pos_of_ne_zero fun zero => by simp [zero] at inside
    obtain ⟨x0, x1, x⟩ := ofNat_inside (Nat.mod_lt k wide)
    obtain ⟨y0, y1, y⟩ := ofNat_inside (Nat.div_lt_of_lt_mul inside)
    have onScreen : OnScreen screen _ _ := ⟨⟨x0, x1⟩, y0, y1⟩
    refine ⟨.putPixel _ _ 0, _, (graphicsPutPixel_writes ..).mpr ⟨nonzero, onScreen, rfl⟩, ?_⟩
    rw [pixelAddress_word onScreen, wordIndex, x, y, Nat.div_add_mod']
  · refine ⟨.clear 0, (wordAddress screen k, 0), ?_, rfl⟩
    simp only [DrawCall.writes, graphicsClear, nonzero, if_false]
    exact mem_map.mpr ⟨k, mem_range.mpr inside, rfl⟩

theorem pages_cover_iff (start len : Nat) {pages : Nat} (few : pages < 2 ^ 20)
    (positive : 0 < len) :
    (∀ d < len, ∃ i < pages, (start + 4096 * i) % 2 ^ 32 / 4096 = (start + d) % 2 ^ 32 / 4096) ↔
      start % 4096 + len ≤ 4096 * pages := by
  constructor
  · intro covered
    by_contra short
    -- The first byte behind the last page, or the first byte if there is no page.
    obtain ⟨i, inside, same⟩ := covered (4096 * pages - start % 4096) (by omega)
    omega
  · intro fits d inside
    exact ⟨(start % 4096 + d) / 4096, by omega, by omega⟩

end

section

def Mapped (pages : List UInt32) (a : UInt32) : Prop := ∃ page ∈ pages, page / 4096 = a / 4096

instance (pages : List UInt32) (a : UInt32) : Decidable (Mapped pages a) :=
  inferInstanceAs (Decidable (∃ page ∈ pages, _))

def DrawsInside (font8x8Basic : Nat → Nat → UInt8) (init : Init) : Prop :=
  ∀ call : DrawCall, ∀ write ∈ call.writes font8x8Basic init.screen,
    init.screen.framebuffer ≠ 0 ∧ ∀ byte < 4, Mapped init.pages (write.1 + UInt32.ofNat byte)

def multibootScreen (mbInfo : MultibootInfo) : Screen where
  framebuffer := mbInfo.framebufferAddrLow
  screenWidth := mbInfo.framebufferWidth.toInt32
  screenHeight := mbInfo.framebufferHeight.toInt32
  screenBpp := mbInfo.framebufferBpp.toUInt32.toInt32

def framePages (mbInfo : MultibootInfo) : Nat :=
  (mbInfo.framebufferWidth.toNat * mbInfo.framebufferHeight.toNat * (mbInfo.framebufferBpp.toNat / 8) %
    2 ^ 32 + 4095) % 2 ^ 32 / 4096

/--
The words that can be drawn fit into the pages. A screen with a negative side has words only
for `graphics_clear`, which looks at the framebuffer itself.
-/
def FrameFits (mbInfo : MultibootInfo) : Prop :=
  let screen := multibootScreen mbInfo
  let fits := mbInfo.framebufferAddrLow.toNat % 4096 + 4 * drawnWords screen ≤
    4096 * framePages mbInfo
  if 0 < screen.screenWidth ∧ 0 < screen.screenHeight then
    mbInfo.framebufferAddrLow ≠ 0 ∧ fits
  else mbInfo.framebufferAddrLow = 0 ∨ drawnWords screen = 0 ∨ fits

instance (mbInfo : MultibootInfo) : Decidable (FrameFits mbInfo) := by
  unfold FrameFits
  infer_instance

section

variable {mbInfo : MultibootInfo}

theorem frameFits_null (null : mbInfo.framebufferAddrLow = 0) : FrameFits mbInfo ↔
    ¬ (0 < (multibootScreen mbInfo).screenWidth ∧ 0 < (multibootScreen mbInfo).screenHeight) := by
  simp [FrameFits, null]

theorem frameFits_iff (nonzero : mbInfo.framebufferAddrLow ≠ 0) : FrameFits mbInfo ↔
    drawnWords (multibootScreen mbInfo) = 0 ∨ mbInfo.framebufferAddrLow.toNat % 4096 +
      4 * drawnWords (multibootScreen mbInfo) ≤ 4096 * framePages mbInfo := by
  simp only [FrameFits, nonzero, ne_eq, not_false_eq_true, true_and, false_or]
  split
  · next positive =>
    have some : drawnWords (multibootScreen mbInfo) ≠ 0 := by
      rw [drawnWords, if_pos positive]
      exact Nat.mul_ne_zero (Nat.ne_zero_of_lt (toNat_lt_of_lt (Int32.le_refl 0) positive.1))
        (Nat.ne_zero_of_lt (toNat_lt_of_lt (Int32.le_refl 0) positive.2))
    simp [some]
  · rfl

end

theorem bytesPerPixel (bpp : UInt8) :
    (bpp.toUInt32.toInt32 / 8).toUInt32 = UInt32.ofNat (bpp.toNat / 8) := by
  cases bpp with
  | ofBitVec bits =>
    revert bits
    decide +kernel

theorem graphicsInit_pages (screen : Screen) (devices : Devices) {mbInfo : MultibootInfo}
    (accepted : mbInfo.flags &&& (1 : UInt32) <<< 12 ≠ 0) (nonzero : mbInfo.framebufferAddrLow ≠ 0) :
    (graphicsInit screen devices (some mbInfo)).pages = (List.range (framePages mbInfo)).map fun i =>
      mbInfo.framebufferAddrLow + UInt32.ofNat i * 0x1000 := by
  have count : ((mbInfo.framebufferWidth * mbInfo.framebufferHeight *
      UInt32.ofNat (mbInfo.framebufferBpp.toNat / 8) + 0xFFF) / 0x1000).toNat = framePages mbInfo := by
    rw [UInt32.toNat_div, UInt32.toNat_add, UInt32.toNat_mul, UInt32.toNat_mul, framePages,
      toNat_ofNat', Nat.mod_mul_mod, Nat.mul_mod_mod, show UInt32.toNat 0xFFF = 4095 from rfl,
      show UInt32.toNat 0x1000 = 4096 from rfl]
  simp only [graphicsInit, accepted, if_false, mapFramebuffer, nonzero, toUInt32_toInt32,
    bytesPerPixel, count]

theorem page_toNat (start : UInt32) (i : Nat) :
    ((start + UInt32.ofNat i * 0x1000) / 4096).toNat = (start.toNat + 4096 * i) % 2 ^ 32 / 4096 := by
  rw [UInt32.toNat_div, UInt32.toNat_add, UInt32.toNat_mul, toNat_ofNat', Nat.mod_mul_mod,
    Nat.add_mod_mod, Nat.mul_comm i]
  rfl

theorem byte_toNat (screen : Screen) (k byte : Nat) :
    ((wordAddress screen k + UInt32.ofNat byte) / 4096).toNat =
      (screen.framebuffer.toNat + (4 * k + byte)) % 2 ^ 32 / 4096 := by
  rw [UInt32.toNat_div, UInt32.toNat_add, wordAddress, UInt32.toNat_add, UInt32.toNat_mul,
    toNat_ofNat', toNat_ofNat', show UInt32.toNat 4 = 4 from rfl,
    show UInt32.toNat 4096 = 4096 from rfl]
  omega

theorem mapped_iff (start : UInt32) (pages : Nat) (screen : Screen)
    (same : screen.framebuffer = start) (k byte : Nat) :
    Mapped ((List.range pages).map fun i => start + UInt32.ofNat i * 0x1000)
        (wordAddress screen k + UInt32.ofNat byte) ↔
      ∃ i < pages, (start.toNat + 4096 * i) % 2 ^ 32 / 4096 =
        (start.toNat + (4 * k + byte)) % 2 ^ 32 / 4096 := by
  subst same
  simp only [Mapped, mem_map, mem_range, exists_exists_and_eq_and]
  refine exists_congr fun i => and_congr_right fun _ => ?_
  rw [← UInt32.toNat_inj, page_toNat, byte_toNat]

section

variable {font8x8Basic : Nat → Nat → UInt8} {screen : Screen}

-- Without a framebuffer only `graphics_draw_rect` draws, and only on a screen.
theorem null_drawn (null : screen.framebuffer = 0) {call : DrawCall}
    (member : write ∈ call.writes font8x8Basic screen) :
    0 < screen.screenWidth ∧ 0 < screen.screenHeight := by
  cases call with
  | putPixel x y color => exact absurd null ((graphicsPutPixel_writes ..).mp member).1
  | drawRect x y w h color =>
    obtain ⟨j, -, i, -, ⟨⟨x0, x1⟩, y0, y1⟩, -⟩ := (graphicsDrawRect_writes ..).mp member
    exact ⟨Int32.lt_of_le_of_lt x0 x1, Int32.lt_of_le_of_lt y0 y1⟩
  | clear color => simp [DrawCall.writes, graphicsClear, null] at member
  | drawString x y str color =>
    obtain ⟨px, py, member⟩ := graphicsDrawString_writes member
    exact absurd null ((graphicsPutPixel_writes ..).mp member).1

theorem corner_drawn (positive : 0 < screen.screenWidth ∧ 0 < screen.screenHeight) :
    (screen.pixelAddress 0 0, 0) ∈ (DrawCall.drawRect 0 0 1 1 0).writes font8x8Basic screen :=
  (graphicsDrawRect_writes ..).mpr
    ⟨0, by decide, 0, by decide, ⟨⟨Int32.le_refl 0, positive.1⟩, Int32.le_refl 0, positive.2⟩, rfl⟩

end

theorem draws_inside_iff (font8x8Basic : Nat → Nat → UInt8) (screen : Screen) (devices : Devices)
    (mbInfo : MultibootInfo) (accepted : mbInfo.flags &&& (1 : UInt32) <<< 12 ≠ 0) :
    DrawsInside font8x8Basic (graphicsInit screen devices (some mbInfo)) ↔ FrameFits mbInfo := by
  have made : (graphicsInit screen devices (some mbInfo)).screen = multibootScreen mbInfo := by
    simp only [graphicsInit, accepted, if_false, mapFramebuffer]
    split <;> rfl
  unfold DrawsInside
  rw [made]
  by_cases null : mbInfo.framebufferAddrLow = 0
  · have zero : (multibootScreen mbInfo).framebuffer = 0 := null
    rw [frameFits_null null]
    constructor
    · intro inside positive
      exact (inside (.drawRect 0 0 1 1 0) _ (corner_drawn positive)).1 zero
    · intro flat call write member
      exact absurd (null_drawn zero member) flat
  · have few : framePages mbInfo < 2 ^ 20 := by
      unfold framePages
      omega
    have covers := pages_cover_iff mbInfo.framebufferAddrLow.toNat
      (4 * drawnWords (multibootScreen mbInfo)) few
    have mapped := mapped_iff mbInfo.framebufferAddrLow (framePages mbInfo) (multibootScreen mbInfo) rfl
    rw [graphicsInit_pages screen devices accepted null, frameFits_iff null]
    constructor
    · intro inside
      by_cases none : drawnWords (multibootScreen mbInfo) = 0
      · exact .inl none
      · refine .inr ((covers (by omega)).mp fun d below => ?_)
        obtain ⟨call, write, member, isWord⟩ := word_drawn font8x8Basic null
          (show d / 4 < drawnWords (multibootScreen mbInfo) by omega)
        have reached := (inside call write member).2 (d % 4) (Nat.mod_lt d (by decide))
        rw [isWord, mapped, Nat.div_add_mod] at reached
        exact reached
    · intro fits call write member
      obtain ⟨k, below, isWord⟩ := writes_words member
      refine ⟨null, fun byte inWord => ?_⟩
      rw [isWord, mapped]
      exact (covers (by omega)).mpr (fits.resolve_left (by omega)) _ (by omega)

def plainFramebuffer : MultibootInfo := ⟨0x1000, 0xFD000000, 800, 600, 32⟩

def noScreen : Screen := ⟨0, 0, 0, 0⟩

def noDevices : Devices := ⟨0, fun _ => 0⟩

theorem draws_inside_iff_plain :
    DrawsInside (fun _ _ => 0xFF) (graphicsInit noScreen noDevices (some plainFramebuffer)) :=
  (draws_inside_iff _ noScreen noDevices plainFramebuffer (by decide)).mpr (by decide)

-- With 24 bits a pixel the end of the screen is not mapped, and a rectangle is drawn at NULL.
theorem draws_outside :
    (let init := graphicsInit noScreen noDevices (some ⟨0x1000, 0xFD000000, 800, 600, 24⟩)
      ∃ write ∈ graphicsPutPixel init.screen 799 599 7, ¬ Mapped init.pages write.1) ∧
    (0, 7) ∈ graphicsDrawRect
      (graphicsInit noScreen noDevices (some ⟨0x1000, 0, 800, 600, 32⟩)).screen 0 0 1 1 7 := by
  decide +kernel

end

end ArgoOS.Graphics
