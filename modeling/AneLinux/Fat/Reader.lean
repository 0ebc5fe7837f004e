import AneLinux.Support.Python
import AneLinux.Support.Utf16

/-!
# The raw FAT32 reader

A directory is a chain of clusters cut into entries of 32 bytes. `entries` goes over them once: it collects the parts of
a long name as it meets them, skips deleted entries, and puts the collected name on the next live entry.
-/

namespace AneLinux.Fat

open AneLinux.Support

/-- `data[i]`. -/
def byteIndex (data : Bytes) (i : ℕ) : Py ℕ := if i < data.size then .ok (data.get i).toNat else .error .indexError

/-- `struct.unpack_from("<H", data, offset)[0]`. -/
def unpackU16 (data : Bytes) (offset : ℕ) : Py ℕ :=
  if offset + 2 ≤ data.size then .ok (data.leNat offset 2) else .error .structError

/-- An image with what its first sector says. -/
structure Fat32 where
  image : Bytes
  bytsPerSec : ℕ
  secPerClus : ℕ
  rsvd : ℕ
  numFats : ℕ
  fatsz : ℕ
  rootclus : ℕ
  fatOff : ℕ
  dataOff : ℕ
  clusSz : ℕ

namespace Fat32

/-- `Fat32.__init__`. -/
def init (image : Bytes) : Py Fat32 := do
  let bpb := image.slice 0 512
  let bytsPerSec ← unpackU16 bpb 11
  let secPerClus ← byteIndex bpb 13
  let rsvd ← unpackU16 bpb 14
  let numFats ← byteIndex bpb 16
  let fatsz ← unpackU32 bpb 36
  let rootclus ← unpackU32 bpb 44
  return { image, bytsPerSec, secPerClus, rsvd, numFats, fatsz, rootclus, fatOff := rsvd * bytsPerSec,
           dataOff := (rsvd + numFats * fatsz) * bytsPerSec, clusSz := secPerClus * bytsPerSec }

/-- `Fat32.fat`. -/
def fat (fs : Fat32) : Bytes := fs.image.slice fs.fatOff (fs.fatOff + fs.fatsz * fs.bytsPerSec)

/-- `Fat32.next`: the cluster behind another one. -/
def next (fs : Fat32) (clus : ℕ) : Py (Option ℕ) := do
  let v := (← unpackU32 fs.fat (clus * 4)) &&& 0x0FFFFFFF
  return if 0x0FFFFFF8 ≤ v then none else some v

/-- The loop of `Fat32.chain`; `left` is how many clusters may still follow. -/
def chainLoop (fs : Fat32) : ℕ → Option ℕ → Py (List ℕ)
  | _, none => .ok []
  | left, some clus =>
    if clus = 0 ∨ 0x0FFFFFF8 ≤ clus then .ok []
    else do
      let following ← fs.next clus
      match left with
      | 0 => .error (.runtimeError "FAT chain runaway")
      | left + 1 =>
        let rest ← fs.chainLoop left following
        return clus :: rest

/-- `Fat32.chain`. -/
def chain (fs : Fat32) (clus : ℕ) : Py (List ℕ) := fs.chainLoop (2 ^ 22) (some clus)

/-- `Fat32.read_clus`. -/
def readClus (fs : Fat32) (clus : ℕ) : Py Bytes :=
  let place : ℤ := fs.dataOff + (clus - 2) * fs.clusSz
  if place < 0 then .error (.osError "Invalid argument")
  else .ok (fs.image.slice place.toNat (place.toNat + fs.clusSz))

/-- `Fat32.read_chain` without a size. -/
def readChain (fs : Fat32) (clus : ℕ) : Py Bytes := do
  let clusters ← fs.chain clus
  let parts ← clusters.mapM fs.readClus
  return Bytes.join parts

end Fat32

/-- `part.decode("utf-16le")`. -/
def decodeUtf16le (part : Bytes) : Py (List Char) :=
  if part.size % 2 ≠ 0 then .error .unicodeDecodeError
  else
    match decodeUtf16 ((List.range (part.size / 2)).map fun i => part.leNat (2 * i) 2) with
    | some text => .ok text
    | none => .error .unicodeDecodeError

/-- The character that pads a long name. -/
def padding : Char := Char.ofNat 0xFFFF

/-- `text.split("\uffff")[0].split("\x00")[0]`. -/
def cutText (text : List Char) : List Char := (text.takeWhile (· ≠ padding)).takeWhile (· ≠ Char.ofNat 0)

/-- What an entry of a long name adds to it. -/
def fragmentText (e : Bytes) : Py (List Char) := do
  let text ← decodeUtf16le (e.slice 1 11 ++ e.slice 14 26 ++ e.slice 28 32)
  return cutText text

/-- `data.decode("ascii", "replace")`. -/
def decodeAscii (data : Bytes) : List Char :=
  (List.range data.size).map fun i =>
    if data.get i < 0x80 then Char.ofNat (data.get i).toNat else Char.ofNat 0xFFFD

/-- Whether `str.isspace` holds of an ASCII character. -/
def isSpace (c : Char) : Bool :=
  c.toNat = 0x20 || (0x09 ≤ c.toNat && c.toNat ≤ 0x0D) || (0x1C ≤ c.toNat && c.toNat ≤ 0x1F)

/-- `text.rstrip()` of ASCII characters and replacement characters. -/
def rstrip (text : List Char) : List Char := (text.reverse.dropWhile isSpace).reverse

/-- `name + ("." + ext if ext else "")`. -/
def shortName (e : Bytes) : List Char :=
  let name := rstrip (decodeAscii (e.slice 0 8))
  let ext := rstrip (decodeAscii (e.slice 8 11))
  name ++ if ext ≠ [] then '.' :: ext else []

/-- A record of `entries`. -/
structure DirEntry where
  name : List Char
  short : List Char
  dir : Bool
  size : ℕ
  clus : ℕ
deriving DecidableEq, Repr

/-- The record of a live entry behind the collected parts of a long name, the latest part last. -/
def dirEntry (e : Bytes) (lfn : List (List Char)) : Py DirEntry := do
  let short := shortName e
  -- An empty name and no name at all both give way to the short one.
  let longname := lfn.reverse.flatten
  let attr ← byteIndex e 11
  let clusHi ← unpackU16 e 20
  let clusLo ← unpackU16 e 26
  let size ← unpackU32 e 28
  return { name := if longname ≠ [] then longname else short, short, dir := attr &&& 0x10 ≠ 0, size,
           clus := clusHi <<< 16 ||| clusLo }

/-- `e[0] == 0xE5 or e[11] == 0x0F`. -/
def isSkipped (e : Bytes) (first : ℕ) : Py Bool :=
  if first = 0xE5 then .ok true else (byteIndex e 11).map fun attr => attr == 0x0F

/-- The loop of `entries` over the entries of 32 bytes. -/
def parseEntries : List Bytes → List (List Char) → Py (List DirEntry)
  | [], _ => .ok []
  | e :: rest, lfn => do
    let first ← byteIndex e 0
    if first = 0 then return []
    else
      let skipped ← isSkipped e first
      if skipped then
        let attr ← byteIndex e 11
        if attr = 0x0F ∧ first ≠ 0xE5 then
          let part ← fragmentText e
          parseEntries rest (lfn ++ [part])
        else parseEntries rest lfn
      else
        let entry ← dirEntry e lfn
        let others ← parseEntries rest []
        return entry :: others

/-- `data[i:i + 32]` for every `i`. -/
def chunks (data : Bytes) : List Bytes :=
  (List.range ((data.size + 31) / 32)).map fun k => data.slice (32 * k) (32 * k + 32)

/-- `Fat32.entries`. -/
def Fat32.entries (fs : Fat32) (clus : ℕ) : Py (List DirEntry) := do
  let data ← fs.readChain clus
  parseEntries (chunks data) []

end AneLinux.Fat
