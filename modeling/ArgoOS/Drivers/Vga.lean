import ArgoOS.Drivers.Serial
import ArgoOS.Shared.Run
import ArgoOS.Shared.Terminal

set_option autoImplicit false

/-!
# The text screen

The functions of `vga.c` that print, on the 4000 bytes of the text buffer. A store outside
of it has no result.
-/

namespace ArgoOS.Vga

open Stepper Terminal Option List Int32

def vgaWidth : Int32 := 80
def vgaHeight : Int32 := 25

structure Screen where
  memory : Nat → UInt8
  cursorX : Int32
  cursorY : Int32
  currentColor : UInt8

def Screen.store (vga : Screen) (index : Int32) (byte : UInt8) : Option Screen :=
  if 0 ≤ index ∧ index < 4000 then
    some { vga with memory := Function.update vga.memory index.toNatClampNeg byte }
  else none

def Screen.load (vga : Screen) (index : Int32) : Option UInt8 :=
  if 0 ≤ index ∧ index < 4000 then some (vga.memory index.toNatClampNeg) else none

def cellIndex (y x : Int32) : Int32 := (y * vgaWidth + x) * 2

def Screen.storeCell (vga : Screen) (index : Int32) (character color : UInt8) : Option Screen := do
  let vga ← vga.store index character
  vga.store (index + 1) color

def forColumns (body : Screen → Int32 → Option Screen) (vga : Screen) : Option Screen :=
  (List.range' 0 80).foldlM (fun vga x => body vga (Int32.ofNat x)) vga

def blankRow (vga : Screen) (y : Int32) : Option Screen :=
  forColumns (fun vga x => vga.storeCell (cellIndex y x) 32 vga.currentColor) vga

def copyRow (vga : Screen) (y : Int32) : Option Screen :=
  forColumns (fun vga x => do
    let srcIndex := cellIndex y x
    let dstIndex := cellIndex (y - 1) x
    let character ← vga.load srcIndex
    let vga ← vga.store dstIndex character
    let color ← vga.load (srcIndex + 1)
    vga.store (dstIndex + 1) color) vga

def vgaClear (vga : Screen) : Option Screen := do
  let vga ← (List.range' 0 25).foldlM (fun vga y => blankRow vga (Int32.ofNat y)) vga
  return { vga with cursorX := 0, cursorY := 0 }

def vgaScroll (vga : Screen) : Option Screen := do
  let vga ← (List.range' 1 24).foldlM (fun vga y => copyRow vga (Int32.ofNat y)) vga
  let vga ← blankRow vga (vgaHeight - 1)
  return { vga with cursorY := vgaHeight - 1 }

def writeCharacter (vga : Screen) (c : UInt8) : Option Screen :=
  if c = 10 then some { vga with cursorX := 0, cursorY := vga.cursorY + 1 }
  else if c = 13 then some { vga with cursorX := 0 }
  else if c = 9 then some { vga with cursorX := (vga.cursorX + 4) &&& ~~~(4 - 1) }
  else do
    let vga ← vga.storeCell (cellIndex vga.cursorY vga.cursorX) c vga.currentColor
    return { vga with cursorX := vga.cursorX + 1 }

def settleCursor (vga : Screen) : Option Screen :=
  let vga := if vgaWidth ≤ vga.cursorX then { vga with cursorX := 0, cursorY := vga.cursorY + 1 }
    else vga
  if vgaHeight ≤ vga.cursorY then vgaScroll vga else some vga

def vgaPutchar (vga : Screen) (c : UInt8) : Option Screen := do
  let vga ← writeCharacter vga c
  settleCursor vga

def vgaPuts (vga : Screen) : List UInt8 → Option Screen
  | [] => some vga
  | c :: str =>
    if c = 0 then some vga
    else do
      let vga ← vgaPutchar vga c
      vgaPuts vga str

def vgaPutdec (vga : Screen) (num : UInt32) : Option Screen :=
  if num = 0 then vgaPutchar vga 48
  else do
    let buffer ← Serial.storeDigits 10 (fun digit => UInt8.ofNat (48 + digit)) 32 num.toNat []
    buffer.foldlM vgaPutchar vga

def vgaPuthex (vga : Screen) (num : UInt32) : Option Screen := do
  let vga ← vgaPuts vga (Text.ascii "0x")
  if num = 0 then vgaPutchar vga 48
  else
    let buffer ← Serial.storeDigits 16 Serial.lowerDigit 32 num.toNat []
    buffer.foldlM vgaPutchar vga

variable {y x : Nat} {index : Nat}

section

def cellAt (memory : Nat → UInt8) (y x : Nat) : UInt8 × UInt8 :=
  (memory ((y * 80 + x) * 2), memory ((y * 80 + x) * 2 + 1))

def setCell (memory : Nat → UInt8) (y x : Nat) (cell : UInt8 × UInt8) : Nat → UInt8 :=
  Function.update (Function.update memory ((y * 80 + x) * 2) cell.1) ((y * 80 + x) * 2 + 1) cell.2

def rowAt (memory : Nat → UInt8) (y : Nat) : List (UInt8 × UInt8) :=
  (List.range 80).map (cellAt memory y)

def screenRows (memory : Nat → UInt8) : List (List (UInt8 × UInt8)) :=
  (List.range 25).map (rowAt memory)

theorem cellAt_setCell (memory : Nat → UInt8) {y' x' : Nat} (cell : UInt8 × UInt8) (inside : x < 80)
    (inside' : x' < 80) :
    cellAt (setCell memory y x cell) y' x' =
      if y' = y ∧ x' = x then cell else cellAt memory y' x' := by
  by_cases same : y' = y ∧ x' = x
  · obtain ⟨rfl, rfl⟩ := same
    simp [cellAt, setCell]
  · have even : (y' * 80 + x') * 2 ≠ (y * 80 + x) * 2 := by omega
    have odd : (y' * 80 + x') * 2 ≠ (y * 80 + x) * 2 + 1 := by omega
    have odd' : (y' * 80 + x') * 2 + 1 ≠ (y * 80 + x) * 2 := by omega
    simp [cellAt, setCell, same, even, odd, odd']

theorem cellIndex_ofNat (y x : Nat) :
    cellIndex (Int32.ofNat y) (Int32.ofNat x) = Int32.ofNat ((y * 80 + x) * 2) := by
  simp [cellIndex, vgaWidth, ofNat_add, ofNat_mul]

theorem ofNat_le_iff {bound n : Nat} (small : bound < 2 ^ 31) (small' : n < 2 ^ 31) :
    Int32.ofNat bound ≤ Int32.ofNat n ↔ bound ≤ n := by
  rw [le_iff_toInt_le, toInt_ofNat_of_lt small, toInt_ofNat_of_lt small']
  exact Int.ofNat_le

theorem ofNat_between {n bound : Nat} (below : n < bound) (small : bound < 2 ^ 31) :
    0 ≤ Int32.ofNat n ∧ Int32.ofNat n < Int32.ofNat bound := by
  refine ⟨(ofNat_le_iff (by decide) (by omega)).mpr (Nat.zero_le n), ?_⟩
  rw [lt_iff_toInt_lt, toInt_ofNat_of_lt small, toInt_ofNat_of_lt (by omega)]
  exact Int.ofNat_lt.mpr below

theorem index_inside (inside : index < 4000) :
    (0 ≤ Int32.ofNat index ∧ Int32.ofNat index < 4000) ∧
      (Int32.ofNat index).toNatClampNeg = index :=
  ⟨ofNat_between inside (by decide), toNatClampNeg_ofNat_of_lt (by omega)⟩

variable (vga : Screen)

theorem store_inside (inside : index < 4000) (byte : UInt8) :
    vga.store (Int32.ofNat index) byte =
      some { vga with memory := Function.update vga.memory index byte } := by
  obtain ⟨bounds, value⟩ := index_inside inside
  rw [Screen.store, if_pos bounds, value]

theorem load_inside (inside : index < 4000) :
    vga.load (Int32.ofNat index) = some (vga.memory index) := by
  obtain ⟨bounds, value⟩ := index_inside inside
  rw [Screen.load, if_pos bounds, value]

theorem storeCell_inside (row : y < 25) (column : x < 80) (character color : UInt8) :
    vga.storeCell (cellIndex (Int32.ofNat y) (Int32.ofNat x)) character color =
      some { vga with memory := setCell vga.memory y x (character, color) } := by
  rw [cellIndex_ofNat, Screen.storeCell, store_inside vga (by omega)]
  change Screen.store _ (Int32.ofNat _ + Int32.ofNat 1) _ = _
  rw [← ofNat_add, store_inside _ (by omega)]
  rfl

end

section

variable (vga : Screen)

theorem forColumns_row {body : Screen → Int32 → Option Screen} (y : Nat) (value : Nat → UInt8 × UInt8)
    (cell : ∀ memory x, x < 80 →
      (∀ y' ≠ y, ∀ x' < 80, cellAt memory y' x' = cellAt vga.memory y' x') →
      body { vga with memory } (Int32.ofNat x) =
        some { vga with memory := setCell memory y x (value x) }) :
    ∃ memory, forColumns body vga = some { vga with memory } ∧
      ∀ y', rowAt memory y' = if y' = y then (List.range 80).map value else rowAt vga.memory y' := by
  obtain ⟨after, taken, memory, rfl, cells⟩ := loop_invariant
    (fun vga x => body vga (Int32.ofNat x)) 0 80
    (fun i v => ∃ memory, v = { vga with memory } ∧ ∀ y', ∀ x' < 80, cellAt memory y' x' =
      if y' = y ∧ x' < i then value x' else cellAt vga.memory y' x')
    ⟨vga.memory, rfl, by simp⟩ (by
      rintro x before - column ⟨memory, rfl, cells⟩
      refine ⟨_, cell memory x (by omega) ?_, _, rfl, ?_⟩
      · intro y' other x' inside
        simp [cells y' x' inside, other]
      · intro y' x' inside
        rw [cellAt_setCell memory _ (by omega) inside, cells y' x' inside]
        grind)
  refine ⟨memory, taken, fun y' => ?_⟩
  split
  · next same =>
    subst same
    refine map_congr_left fun x inside => ?_
    rw [mem_range] at inside
    simp [cells y' x inside, inside]
  · next other =>
    refine map_congr_left fun x inside => ?_
    simp [cells y' x (mem_range.mp inside), other]

theorem blankRow_rows (inside : y < 25) :
    ∃ memory, blankRow vga (Int32.ofNat y) = some { vga with memory } ∧ ∀ y', rowAt memory y' =
      if y' = y then List.replicate 80 (32, vga.currentColor) else rowAt vga.memory y' := by
  have blank : (List.range 80).map (fun _ => ((32 : UInt8), vga.currentColor)) =
      List.replicate 80 (32, vga.currentColor) := by
    rw [map_const', length_range]
  rw [← blank]
  refine forColumns_row vga y _ fun memory x column _ => ?_
  exact storeCell_inside { vga with memory } inside column 32 vga.currentColor

theorem copyRow_rows (inside : y + 1 < 25) :
    ∃ memory, copyRow vga (Int32.ofNat (y + 1)) = some { vga with memory } ∧
      ∀ y', rowAt memory y' = if y' = y then rowAt vga.memory (y + 1) else rowAt vga.memory y' := by
  refine forColumns_row vga y (cellAt vga.memory (y + 1)) fun memory x column others => ?_
  have above : Int32.ofNat (y + 1) - 1 = Int32.ofNat y := by
    rw [ofNat_add]
    exact Int32.add_sub_cancel _ _
  have next : ∀ n, Int32.ofNat n + 1 = Int32.ofNat (n + 1) := fun n => (ofNat_add n 1).symm
  rw [← others (y + 1) (by omega) x column]
  simp only [above, cellIndex_ofNat, next, bind_eq_bind]
  rw [load_inside _ (by omega), bind_some, store_inside _ (by omega), bind_some,
    load_inside _ (by omega), bind_some, store_inside _ (by omega)]
  have apart : ((y + 1) * 80 + x) * 2 + 1 ≠ (y * 80 + x) * 2 := by omega
  simp only [Function.update_of_ne apart]
  rfl

theorem vgaClear_rows : ∃ memory,
    vgaClear vga = some { vga with memory, cursorX := 0, cursorY := 0 } ∧
      screenRows memory = List.replicate 25 (List.replicate 80 (32, vga.currentColor)) := by
  obtain ⟨after, taken, memory, rfl, rows⟩ := loop_invariant
    (fun vga y => blankRow vga (Int32.ofNat y)) 0 25
    (fun i v => ∃ memory, v = { vga with memory } ∧
      ∀ y < i, rowAt memory y = List.replicate 80 (32, vga.currentColor))
    ⟨vga.memory, rfl, by simp⟩ (by
      rintro y before - row ⟨memory, rfl, rows⟩
      obtain ⟨memory', taken, cleared⟩ := blankRow_rows { vga with memory } (y := y) (by omega)
      refine ⟨_, taken, memory', rfl, fun y' below => ?_⟩
      rw [cleared y']
      split
      · rfl
      · exact rows y' (by omega))
  refine ⟨memory, by simp only [vgaClear, taken]; rfl, ?_⟩
  rw [screenRows, map_congr_left fun y inside => rows y (mem_range.mp inside),
    map_const', length_range]

theorem vgaScroll_rows : ∃ memory,
    vgaScroll vga = some { vga with memory, cursorY := Int32.ofNat 24 } ∧
      screenRows memory =
        (screenRows vga.memory).tail ++ [List.replicate 80 (32, vga.currentColor)] := by
  obtain ⟨after, taken, memory, rfl, rows⟩ := loop_invariant
    (fun vga y => copyRow vga (Int32.ofNat y)) 1 24
    (fun i v => ∃ memory, v = { vga with memory } ∧ ∀ y, rowAt memory y =
      if y + 1 < i then rowAt vga.memory (y + 1) else rowAt vga.memory y)
    ⟨vga.memory, rfl, by simp⟩ (by
      rintro y before positive row ⟨memory, rfl, rows⟩
      obtain ⟨y, rfl⟩ : ∃ n, y = n + 1 := ⟨y - 1, by omega⟩
      obtain ⟨memory', taken, copied⟩ := copyRow_rows { vga with memory } (y := y) (by omega)
      refine ⟨_, taken, memory', rfl, fun y' => ?_⟩
      rw [copied y', rows y', rows (y + 1)]
      grind)
  obtain ⟨memory', taken', cleared⟩ := blankRow_rows { vga with memory } (y := 24) (by omega)
  refine ⟨memory', ?_, ?_⟩
  · simp only [vgaScroll, taken, bind_eq_bind, bind_some]
    rw [show vgaHeight - 1 = Int32.ofNat 24 from rfl, taken']
    rfl
  · have moved : ∀ y ∈ List.range 24, rowAt memory' y = rowAt vga.memory (y + 1) := by
      intro y inside
      rw [mem_range] at inside
      simp [cleared y, rows y, show y ≠ 24 by omega, show y + 1 < 1 + 24 by omega]
    have shown : screenRows vga.memory =
        rowAt vga.memory 0 :: (List.range 24).map fun y => rowAt vga.memory (y + 1) := by
      rw [screenRows, range_succ_eq_map, map_cons, List.map_map]
      rfl
    rw [shown, tail_cons, screenRows, range_succ, map_append,
      map_congr_left moved, map_singleton, cleared 24, if_pos rfl]

end

section

def key (color c : UInt8) : Key (UInt8 × UInt8) :=
  if c = 10 then .newline
  else if c = 13 then .carriageReturn
  else if c = 9 then .tab
  else .glyph (c, color)

abbrev Paper := Page (UInt8 × UInt8)

def blankPaper (color : UInt8) : Paper := .empty 80 (32, color)

def Paper.print (color : UInt8) (page : Paper) (c : UInt8) : Paper :=
  page.type 80 4 (32, color) (key color c)

def shownRows (color : UInt8) (page : Paper) : List (List (UInt8 × UInt8)) :=
  lastRows 25 (List.replicate 80 (32, color)) page.rows

structure Shows (color : UInt8) (vga : Screen) (page : Paper) : Prop where
  currentColor : vga.currentColor = color
  rows : screenRows vga.memory = shownRows color page
  column : page.column < 80
  cursorX : vga.cursorX = Int32.ofNat page.column
  cursorY : vga.cursorY = Int32.ofNat (min page.above.length 24)

variable {color : UInt8} {vga : Screen} {page : Paper}

theorem screenRows_setCell (memory : Nat → UInt8) (row : y < 25) (column : x < 80)
    (cell : UInt8 × UInt8) : screenRows (setCell memory y x cell) =
      (screenRows memory).set y ((rowAt memory y).set x cell) := by
  have rows : ∀ y', rowAt (setCell memory y x cell) y' =
      if y' = y then (rowAt memory y).set x cell else rowAt memory y' := by
    intro y'
    refine ext_getElem (by split <;> simp [rowAt]) fun x' inside _ => ?_
    have column' : x' < 80 := by simpa [rowAt] using inside
    split
    · next same =>
      subst same
      simp [rowAt, cellAt_setCell memory cell column column', getElem_set, eq_comm]
    · next other => simp [rowAt, cellAt_setCell memory cell column column', other]
  refine ext_getElem (by simp [screenRows]) fun y' inside _ => ?_
  simp [screenRows, rows, getElem_set, eq_comm]

theorem settleCursor_inside (column : x < 80) (row : y < 25) (cursorX : vga.cursorX = Int32.ofNat x)
    (cursorY : vga.cursorY = Int32.ofNat y) : settleCursor vga = some vga := by
  have left : ¬ vgaWidth ≤ Int32.ofNat x := by
    rw [show vgaWidth = Int32.ofNat 80 from rfl, ofNat_le_iff (by decide) (by omega)]
    omega
  have above : ¬ vgaHeight ≤ Int32.ofNat y := by
    rw [show vgaHeight = Int32.ofNat 25 from rfl, ofNat_le_iff (by decide) (by omega)]
    omega
  simp [settleCursor, cursorX, cursorY, left, above]

theorem settleCursor_wrap (cursorX : vga.cursorX = Int32.ofNat 80) :
    settleCursor vga = settleCursor { vga with cursorX := 0, cursorY := vga.cursorY + 1 } := by
  simp [settleCursor, cursorX, vgaWidth]

theorem settleCursor_newline (same : vga.currentColor = color)
    (rows : screenRows vga.memory = shownRows color page) (cursorX : vga.cursorX = 0)
    (cursorY : vga.cursorY = Int32.ofNat (min page.above.length 24) + 1) :
    ∃ after, settleCursor vga = some after ∧ Shows color after (page.newline 80 (32, color)) := by
  have size : page.rows.length = page.above.length + 1 := by simp [Page.rows]
  have next : vga.cursorY = Int32.ofNat (min page.above.length 24 + 1) := by
    rw [cursorY, ofNat_add]
    rfl
  by_cases room : page.above.length < 24
  · refine ⟨vga, settleCursor_inside (x := 0) (by decide) (by omega) cursorX next, same, ?_,
      by simp [Page.newline], cursorX, ?_⟩
    · rw [rows]
      exact (lastRows_below (by omega)).symm
    · rw [next, Page.newline, size]
      congr 1
      omega
  · obtain ⟨memory, scrolled, moved⟩ := vgaScroll_rows vga
    refine ⟨{ vga with memory, cursorY := Int32.ofNat 24 }, ?_, same, ?_, by simp [Page.newline],
      cursorX, ?_⟩
    · rw [← scrolled]
      simp [settleCursor, cursorX, next, vgaWidth, vgaHeight,
        show min page.above.length 24 = 24 by omega]
    · rw [moved, rows, same]
      exact (lastRows_scroll _ (by decide) (by omega)).symm
    · rw [Page.newline, size, show min (page.above.length + 1) 24 = 24 by omega]

theorem tab_stop (inside : x < 80) :
    (Int32.ofNat x + 4) &&& ~~~(4 - 1) = Int32.ofNat ((x / 4 + 1) * 4) := by
  have all : ∀ x : Fin 80, (Int32.ofNat x + 4) &&& ~~~(4 - 1) = Int32.ofNat ((x / 4 + 1) * 4) := by
    decide
  exact all ⟨x, inside⟩

theorem settleCursor_wrapped (same : vga.currentColor = color)
    (rows : screenRows vga.memory = shownRows color page) (column : page.column ≤ 80)
    (cursorX : vga.cursorX = Int32.ofNat page.column)
    (cursorY : vga.cursorY = Int32.ofNat (min page.above.length 24)) :
    ∃ after, settleCursor vga = some after ∧ Shows color after (page.wrap 80 (32, color)) := by
  by_cases inside : page.column < 80
  · refine ⟨vga, settleCursor_inside inside (by omega) cursorX cursorY, ?_⟩
    rw [Page.wrap, if_neg (by omega)]
    exact ⟨same, rows, inside, cursorX, cursorY⟩
  · have atEnd : page.column = 80 := by omega
    rw [settleCursor_wrap (by rw [cursorX, atEnd]), Page.wrap, if_pos (by omega)]
    exact settleCursor_newline same rows rfl (by rw [cursorY])

theorem Shows.storeCell (shows : Shows color vga page) (c : UInt8) :
    ∃ memory, vga.storeCell (cellIndex vga.cursorY vga.cursorX) c color =
        some { vga with memory } ∧
      screenRows memory = shownRows color
        { page with line := page.line.set page.column (c, color), column := page.column + 1 } := by
  have row : min page.above.length 24 < 25 := by omega
  refine ⟨setCell vga.memory (min page.above.length 24) page.column (c, color), ?_, ?_⟩
  · have stored := storeCell_inside vga row shows.column c color
    rwa [← shows.cursorX, ← shows.cursorY] at stored
  · obtain ⟨before, after, length, lines⟩ :=
      lastRows_line 25 (List.replicate 80 (32, color)) page.above (by decide)
    have shown : screenRows vga.memory = before ++ page.line :: after :=
      shows.rows.trans (lines page.line)
    have line : rowAt vga.memory (min page.above.length 24) = page.line := by
      have here : (screenRows vga.memory)[before.length]? = some page.line := by simp [shown]
      rw [length] at here
      simpa [screenRows, row] using here
    rw [screenRows_setCell vga.memory row shows.column, line, shown, ← length]
    simp only [shownRows, Page.rows, lines, set_append_right _ _ (Nat.le_refl _),
      Nat.sub_self, set_cons_zero]

theorem vgaPutchar_shows (shows : Shows color vga page) (c : UInt8) :
    ∃ after, vgaPutchar vga c = some after ∧ Shows color after (page.print color c) := by
  unfold vgaPutchar writeCharacter Paper.print key
  split_ifs
  · exact settleCursor_newline shows.currentColor shows.rows rfl (by rw [shows.cursorY])
  · refine ⟨{ vga with cursorX := 0 },
      settleCursor_inside (x := 0) (by decide) (by omega) rfl shows.cursorY, ?_⟩
    exact ⟨shows.currentColor, shows.rows, by simp [Page.type], rfl, shows.cursorY⟩
  · have column := shows.column
    refine settleCursor_wrapped shows.currentColor shows.rows ?_ ?_ shows.cursorY
    · change (page.column / 4 + 1) * 4 ≤ 80
      omega
    · change (vga.cursorX + 4) &&& ~~~(4 - 1) = _
      rw [shows.cursorX, tab_stop shows.column]
  · have column := shows.column
    obtain ⟨memory, stored, rows⟩ := shows.storeCell c
    rw [shows.currentColor, stored]
    refine settleCursor_wrapped shows.currentColor rows (by simp; omega) ?_ shows.cursorY
    simp only
    rw [shows.cursorX, ofNat_add]
    rfl

theorem putchars_shows (shows : Shows color vga page) (chars : List UInt8) :
    ∃ after, chars.foldlM vgaPutchar vga = some after ∧
      Shows color after (chars.foldl (Paper.print color) page) := by
  induction chars generalizing vga page with
  | nil => exact ⟨vga, rfl, shows⟩
  | cons c chars ih =>
    obtain ⟨middle, put, shows⟩ := vgaPutchar_shows shows c
    obtain ⟨after, rest, shows⟩ := ih shows
    refine ⟨after, ?_, shows⟩
    rw [foldlM_cons, put]
    exact rest

theorem vgaPuts_eq (vga : Screen) (str : List UInt8) :
    vgaPuts vga str = (str.takeWhile (· ≠ 0)).foldlM vgaPutchar vga := by
  induction str generalizing vga with
  | nil => rfl
  | cons c str ih =>
    by_cases stop : c = 0
    · simp [vgaPuts, stop]
    · simp [vgaPuts, stop, ih]

theorem putDigits_eq {base : Nat} (several : 1 < base) {digit : Nat → UInt8} (vga : Screen)
    (num : UInt32) (fits : num.toNat < base ^ 32) (zero : digit 0 = 48) :
    (if num = 0 then vgaPutchar vga 48
      else do
        let buffer ← Serial.storeDigits base digit 32 num.toNat []
        buffer.foldlM vgaPutchar vga) =
      (Text.numeral base digit num.toNat).foldlM vgaPutchar vga := by
  split
  · next isZero =>
    subst isZero
    rw [UInt32.toNat_zero, Text.numeral_zero, zero]
    simp
  · next nonzero =>
    have positive : 0 < num.toNat :=
      Nat.pos_of_ne_zero (fun isZero => nonzero (UInt32.toNat.inj isZero))
    rw [Serial.storeDigits_numeral several digit 32 [] positive fits, append_nil]
    rfl

theorem vgaPutdec_decimal (vga : Screen) (num : UInt32) :
    vgaPutdec vga num = (Text.decimal num.toNat).foldlM vgaPutchar vga := by
  have bound := num.toNat_lt
  rw [Text.decimal_numeral]
  exact putDigits_eq (by decide) vga num (by omega) rfl

theorem vgaPuthex_numeral (vga : Screen) (num : UInt32) : vgaPuthex vga num =
    (Text.ascii "0x" ++ Text.numeral 16 Serial.lowerDigit num.toNat).foldlM vgaPutchar vga := by
  have bound := num.toNat_lt
  have mark : vgaPuts vga (Text.ascii "0x") = (Text.ascii "0x").foldlM vgaPutchar vga :=
    vgaPuts_eq vga (Text.ascii "0x")
  rw [vgaPuthex, mark, foldlM_append]
  congr 1
  funext vga
  exact putDigits_eq (by decide) vga num (by omega) rfl

end

inductive Print where
  | vgaPutchar (c : UInt8)
  | vgaPuts (str : List UInt8)

def printStep (vga : Screen) : Print → Option Screen
  | .vgaPutchar c => vgaPutchar vga c
  | .vgaPuts str => vgaPuts vga str

def Print.characters : Print → List UInt8
  | .vgaPutchar c => [c]
  | .vgaPuts str => str.takeWhile (· ≠ 0)

theorem prints_eq (vga : Screen) (prints : List Print) :
    prints.foldlM printStep vga = (prints.flatMap Print.characters).foldlM vgaPutchar vga := by
  induction prints generalizing vga with
  | nil => rfl
  | cons print prints ih =>
    have first : printStep vga print = print.characters.foldlM vgaPutchar vga := by
      cases print with
      | vgaPutchar c => simp [printStep, Print.characters]
      | vgaPuts str => exact vgaPuts_eq vga str
    rw [foldlM_cons, flatMap_cons, foldlM_append, first]
    congr 1
    funext vga
    exact ih vga

theorem screen_shows_terminal (vga : Screen) :
    ∃ cleared, vgaClear vga = some cleared ∧
      (∀ prints : List Print, prints.foldlM printStep cleared =
        (prints.flatMap Print.characters).foldlM vgaPutchar cleared) ∧
      ∀ chars : List UInt8, ∃ after, chars.foldlM vgaPutchar cleared = some after ∧
        (0 ≤ after.cursorX ∧ after.cursorX < vgaWidth) ∧
        (0 ≤ after.cursorY ∧ after.cursorY < vgaHeight) ∧
        screenRows after.memory = shownRows vga.currentColor
          (chars.foldl (Paper.print vga.currentColor) (blankPaper vga.currentColor)) := by
  obtain ⟨memory, cleared, rows⟩ := vgaClear_rows vga
  have start : Shows vga.currentColor { vga with memory, cursorX := 0, cursorY := 0 }
      (blankPaper vga.currentColor) :=
    ⟨rfl, rows, by simp [blankPaper, Page.empty], rfl, rfl⟩
  refine ⟨_, cleared, prints_eq _, fun chars => ?_⟩
  obtain ⟨after, printed, shows⟩ := putchars_shows start chars
  refine ⟨after, printed, ?_, ?_, shows.rows⟩
  · rw [shows.cursorX]
    exact ofNat_between shows.column (by decide)
  · rw [shows.cursorY]
    exact ofNat_between (Nat.lt_succ_of_le (Nat.min_le_right _ 24)) (by decide)

end ArgoOS.Vga
