import ArgoOS.Lib.Strings
import ArgoOS.Shell.Session

set_option autoImplicit false

/-!
# Commands on files

The commands of `shell.c` that read, copy and move files. The arguments are `argv[0]` to
`argv[argc - 1]`.
-/

namespace ArgoOS.Shell

open Fs (CString modeRead modeWrite typeDir newline)
open Text (ascii)

-- `fs_open(filename, FS_MODE_READ)` with the message that `grep`, `wc`, `head` and `tail`
-- print when it fails.
def openForReading (filename : CString) : ShellM (Option Int) := do
  let fd ← fsOpen filename modeRead
  if fd < 0 then
    serialPuts (ascii "Error: Cannot open file: ")
    serialPuts filename.bytes
    serialPuts (ascii "\n")
    return none
  else
    return some fd

-- `bytes_read < 0 || (uint32_t)bytes_read != file_size`
def shortCount (count : Int) (fileSize : UInt32) : Bool :=
  count < 0 || count.toNat != fileSize.toNat

-- From `kmalloc(file_size + 1)` to `buffer[file_size] = '\0'` in the same four commands.
def readWhole (fd : Int) (fileSize : UInt32) : ShellM (Option (Nat × (Nat → UInt8))) := do
  match ← kmalloc (fileSize + 1) with
  | none =>
    serialPuts (ascii "Error: Out of memory\n")
    let _ ← fsClose fd
    return none
  | some buffer =>
    let (bytesRead, bytes) ← fsRead fd buffer fileSize
    let _ ← fsClose fd
    if shortCount bytesRead fileSize then
      serialPuts (ascii "Error: Cannot read file\n")
      kfree buffer
      return none
    else
      return some (buffer, Function.update bytes fileSize.toNat 0)

/-- The course of `wc`, `head` and `tail`; `print` is what they do with the buffer and the
size of the file. -/
def onFile (filename : CString) (print : (Nat → UInt8) → Nat → ShellM Unit) : ShellM Int := do
  match ← openForReading filename with
  | none => return -1
  | some fd =>
    let fileSize ← fsSize fd
    match ← readWhole fd fileSize with
    | none => return -1
    | some (buffer, bytes) =>
      print bytes fileSize.toNat
      kfree buffer
      return 0

section

structure Counts where
  lines : Nat
  words : Nat
  inWord : Bool

-- `' '`, `'\t'`, `'\n'` and `'\r'`
def wcBlank (c : UInt8) : Bool :=
  c == 32 || c == 9 || c == newline || c == 13

def Counts.scan (counts : Counts) (c : UInt8) : Counts :=
  let lines := if c = newline then counts.lines + 1 else counts.lines
  if wcBlank c then
    if counts.inWord then { lines := lines, words := counts.words + 1, inWord := false }
    else { counts with lines := lines }
  else { counts with lines := lines, inWord := true }

def Counts.total (counts : Counts) : Nat :=
  if counts.inWord then counts.words + 1 else counts.words

def printCounts (filename : CString) (bytes : Nat → UInt8) (fileSize : Nat) : ShellM Unit := do
  let counts := (Bytes.window bytes 0 fileSize).foldl Counts.scan ⟨0, 0, false⟩
  serialPutdec (UInt32.ofNat counts.lines)
  serialPuts (ascii " ")
  serialPutdec (UInt32.ofNat counts.total)
  serialPuts (ascii " ")
  serialPutdec (UInt32.ofNat fileSize)
  serialPuts (ascii " ")
  serialPuts filename.bytes
  serialPuts (ascii "\n")

def cmdWc : List CString → ShellM Int
  | _ :: filename :: _ => onFile filename (printCounts filename)
  | _ => do
    serialPuts (ascii "Usage: wc <file>\n")
    return -1

end

section

-- The digits of `num_str` are taken in 32 bits, up to the first other byte.
def parseLines : UInt32 → List UInt8 → UInt32
  | numLines, [] => numLines
  | numLines, c :: numStr =>
    if 48 ≤ c ∧ c ≤ 57 then parseLines (numLines * 10 + (c - 48).toUInt32) numStr else numLines

def lineCount (numStr : Option CString) : UInt32 :=
  match numStr with
  | none => 10
  | some numStr =>
    let numLines := parseLines 0 numStr.bytes
    if numLines = 0 then 10 else numLines

-- What `head` prints of the rest of the file once `linesPrinted` lines are out.
def headLoop (numLines : Nat) : Nat → List UInt8 → List UInt8
  | _, [] => []
  | linesPrinted, c :: rest =>
    if linesPrinted < numLines then
      c :: headLoop numLines (if c = newline then linesPrinted + 1 else linesPrinted) rest
    else []

def printHead (numLines : UInt32) (bytes : Nat → UInt8) (fileSize : Nat) : ShellM Unit :=
  forM (headLoop numLines.toNat 0 (Bytes.window bytes 0 fileSize)) serialPutchar

-- `start_pos`: the search goes on in the given rest of the file, which starts at `i`.
def tailStart (linesToSkip : Nat) : Nat → Nat → List UInt8 → Nat
  | _, _, [] => 0
  | i, linesSkipped, c :: rest =>
    if c = newline then
      if linesSkipped + 1 > linesToSkip then i + 1
      else tailStart linesToSkip (i + 1) (linesSkipped + 1) rest
    else tailStart linesToSkip (i + 1) linesSkipped rest

def printTail (numLines : UInt32) (bytes : Nat → UInt8) (fileSize : Nat) : ShellM Unit :=
  let text := Bytes.window bytes 0 fileSize
  let totalLines := text.count newline
  let linesToSkip := if totalLines > numLines.toNat then totalLines - numLines.toNat else 0
  let startPos := tailStart linesToSkip 0 0 text
  forM (Bytes.window bytes startPos (fileSize - startPos)) serialPutchar

def cmdHead : List CString → ShellM Int
  | _ :: filename :: rest => onFile filename (printHead (lineCount rest.head?))
  | _ => do
    serialPuts (ascii "Usage: head <file> [lines]\n")
    serialPuts (ascii "Default: 10 lines\n")
    return -1

def cmdTail : List CString → ShellM Int
  | _ :: filename :: rest => onFile filename (printTail (lineCount rest.head?))
  | _ => do
    serialPuts (ascii "Usage: tail <file> [lines]\n")
    serialPuts (ascii "Default: 10 lines\n")
    return -1

end

section

-- `line_num` and `line_start` after the newlines before a position are counted.
def lineBefore (bytes : Nat → UInt8) (i : Nat) : Nat × Nat :=
  (List.range i).foldl (fun (lineNum, lineStart) j =>
    if bytes j = newline then (lineNum + 1, j + 1) else (lineNum, lineStart)) (1, 0)

def lineEnd (bytes : Nat → UInt8) (fileSize i : Nat) : Nat :=
  i + ((Bytes.window bytes i (fileSize - i)).takeWhile (fun c => c ≠ newline ∧ c ≠ 0)).length

-- `memcmp(buffer + i, pattern, pattern_len) == 0`. The block ends behind the terminator of
-- the file, and no pattern goes on over the terminator.
def matchAt (pattern : List UInt8) (bytes : Nat → UInt8) (fileSize i : Nat) : ShellM Bool :=
  fun s =>
    if i ≤ fileSize then
      .ok (Strings.memcmp (Bytes.window bytes i pattern.length) pattern == 0, s)
    else .error .outOfBounds

-- The body of the loop over the positions; the result says whether the pattern is here.
def grepAt (pattern : List UInt8) (bytes : Nat → UInt8) (fileSize i : Nat) : ShellM Bool := do
  if ← matchAt pattern bytes fileSize i then
    let lineNum := (lineBefore bytes i).1
    let lineStart := (lineBefore bytes i).2
    let lineEnd := lineEnd bytes fileSize i
    serialPutdec (UInt32.ofNat lineNum)
    serialPuts (ascii ": ")
    forM (Bytes.window bytes lineStart (min lineEnd fileSize - lineStart)) serialPutchar
    serialPuts (ascii "\n")
    return true
  else
    return false

-- `int pattern_len = strlen(pattern)`
def patternLen (pattern : List UInt8) : Int :=
  Fs.signed (UInt32.ofNat pattern.length)

-- `for (int i = 0; i <= (int)file_size - pattern_len; i++)`
def grepPositions (pattern : List UInt8) (fileSize : Nat) : List Nat :=
  List.range ((fileSize : Int) - patternLen pattern + 1).toNat

def printMatches (pattern : CString) (bytes : Nat → UInt8) (fileSize : Nat) : ShellM Unit := do
  let found ← (grepPositions pattern.bytes fileSize).mapM (grepAt pattern.bytes bytes fileSize)
  if found.count true = 0 then
    serialPuts (ascii "Pattern not found\n")

def cmdGrep : List CString → ShellM Int
  | _ :: pattern :: filename :: _ => do
    match ← openForReading filename with
    | none => return -1
    | some fd =>
      let fileSize ← fsSize fd
      if fileSize = 0 then
        let _ ← fsClose fd
        return 0
      else
        match ← readWhole fd fileSize with
        | none => return -1
        | some (buffer, bytes) =>
          printMatches pattern bytes fileSize.toNat
          kfree buffer
          return 0
  | _ => do
    serialPuts (ascii "Usage: grep <pattern> <file>\n")
    serialPuts (ascii "Example: grep hello file.txt\n")
    return -1

end

section

def writeCopy (dst : CString) (buffer : Nat) (bytes : Nat → UInt8) (fileSize : UInt32) :
    ShellM Int := do
  let dstFd ← fsOpen dst modeWrite
  if dstFd < 0 then
    serialPuts (ascii "Error: Cannot create destination file\n")
    kfree buffer
    return -1
  else
    let bytesWritten ← fsWrite dstFd bytes fileSize
    let _ ← fsClose dstFd
    kfree buffer
    if shortCount bytesWritten fileSize then
      serialPuts (ascii "Error: Cannot write to destination file\n")
      return -1
    else
      return 0

/-- The copying in `mv` and `cp`; `directory` is what they print for a directory. -/
def copyFile (directory : List UInt8) (src dst : CString) : ShellM Int := do
  if ! (← fsExists src) then
    serialPuts (ascii "Error: Source file not found: ")
    serialPuts src.bytes
    serialPuts (ascii "\n")
    return -1
  else if (← fsType src) = typeDir then
    serialPuts directory
    return -1
  else
    let srcFd ← fsOpen src modeRead
    if srcFd < 0 then
      serialPuts (ascii "Error: Cannot open source file\n")
      return -1
    else
      let fileSize ← fsSize srcFd
      match ← kmalloc fileSize with
      | none =>
        serialPuts (ascii "Error: Out of memory\n")
        let _ ← fsClose srcFd
        return -1
      | some buffer =>
        let (bytesRead, bytes) ← fsRead srcFd buffer fileSize
        let _ ← fsClose srcFd
        if shortCount bytesRead fileSize then
          serialPuts (ascii "Error: Cannot read source file\n")
          kfree buffer
          return -1
        else
          writeCopy dst buffer bytes fileSize

def cmdCp : List CString → ShellM Int
  | _ :: src :: dst :: _ =>
    copyFile (ascii "Error: Copying directories not yet supported\n") src dst
  | _ => do
    serialPuts (ascii "Usage: cp <source> <destination>\n")
    return -1

def cmdMv : List CString → ShellM Int
  | _ :: src :: dst :: _ => do
    if (← copyFile (ascii "Error: Moving directories not yet supported\n") src dst) < 0 then
      return -1
    else if (← fsRemove src) < 0 then
      serialPuts (ascii "Warning: File copied but source could not be removed\n")
      return -1
    else
      return 0
  | _ => do
    serialPuts (ascii "Usage: mv <source> <destination>\n")
    return -1

end

section

-- The arguments before the first ">" that another argument follows, and that argument.
def redirection : List CString → Option (List CString × CString)
  | arg :: filename :: rest =>
    if Strings.strcmp arg.bytes (ascii ">") = 0 then some ([], filename)
    else (redirection (filename :: rest)).map (fun (args, file) => (arg :: args, file))
  | _ => none

def argBuffer (arg : List UInt8) (i : Nat) : UInt8 :=
  arg.getD i 0

def writeArgs (fd : Int) : List CString → ShellM Unit
  | [] => return
  | arg :: rest => do
    let _ ← fsWrite fd (argBuffer arg.bytes) (UInt32.ofNat arg.bytes.length)
    if rest ≠ [] then
      let _ ← fsWrite fd (argBuffer (ascii " ")) 1
    writeArgs fd rest

def printArgs : List CString → ShellM Unit
  | [] => return
  | arg :: rest => do
    serialPuts arg.bytes
    if rest ≠ [] then
      serialPuts (ascii " ")
    printArgs rest

def cmdEcho : List CString → ShellM Int
  | _ :: arg :: rest => do
    match redirection (arg :: rest) with
    | some (args, filename) =>
      let fd ← fsOpen filename modeWrite
      if fd < 0 then
        serialPuts (ascii "Error: Cannot create file '")
        serialPuts filename.bytes
        serialPuts (ascii "'\n")
        return -1
      else
        writeArgs fd args
        let _ ← fsWrite fd (argBuffer (ascii "\n")) 1
        let _ ← fsClose fd
        return 0
    | none =>
      printArgs (arg :: rest)
      serialPuts (ascii "\n")
      return 0
  | _ => do
    serialPuts (ascii "\n")
    return 0

end

end ArgoOS.Shell
