import Goz.Core.Types

namespace Goz.Proto

def maxServerFrame : Nat := 16 * 2 ^ 20

def pageRows : Nat := 4096

def respTagResults : UInt8 := 1

def flagMore : UInt8 := 1

def flagVolumesIncomplete : UInt8 := 2

def flagMetadataPending : UInt8 := 4

def flagTotalSize : UInt8 := 8

def iflagIsDir : UInt8 := 1

def iflagHasSize : UInt8 := 2

def iflagHasMtime : UInt8 := 4

def leBytes (width n : Nat) : Bytes := (List.range width).map fun i => UInt8.ofNat (n / 256 ^ i)

@[simp] theorem length_leBytes (width n : Nat) : (leBytes width n).length = width := by simp [leBytes]

def bit (flag : UInt8) (set : Bool) : UInt8 := if set then flag else 0

structure Summary where
  total : Nat
  volumesIncomplete : Bool
  metadataPending : Bool
  totalSize : Option Nat

def pushResultsHeader (out : Bytes) (s : Summary) (generation : Nat) (more : Bool) (count : Nat) : Bytes :=
  out ++ [respTagResults] ++ leBytes 8 s.total ++ leBytes 8 generation ++
    [bit flagMore more ||| bit flagVolumesIncomplete s.volumesIncomplete |||
      bit flagMetadataPending s.metadataPending ||| bit flagTotalSize s.totalSize.isSome] ++
    leBytes 4 count ++ (s.totalSize.map (leBytes 8)).getD []

def patchResultsHeader (page : Bytes) (more : Bool) (count : Nat) : Bytes :=
  let flags := page.getD 17 0
  page.take 17 ++ [if more then flags ||| flagMore else flags &&& ~~~flagMore] ++ leBytes 4 count ++ page.drop 22

def pushItem (out rawPath : Bytes) (isDir : Bool) (size : Option UInt64) (mtime : Option Int64) : Bytes :=
  out ++ leBytes 4 rawPath.length ++ rawPath ++
    [bit iflagIsDir isDir ||| bit iflagHasSize size.isSome ||| bit iflagHasMtime mtime.isSome] ++
    (size.map fun s => leBytes 8 s.toNat).getD [] ++ (mtime.map fun m => leBytes 8 m.toUInt64.toNat).getD []

end Goz.Proto
