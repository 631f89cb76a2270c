import LeoEdk.Variable.Store

/-!
The lists of supported languages (`Variable.c`), by which `AutoUpdateLangVariable` translates between `Lang` and
`PlatformLang`: `LangCodes` has a code of three letters for each language, `PlatformLangCodes` separates its codes by
semicolons.
-/

namespace LeoEdk.Variable

open Bytes

def asciiStr (bs : Bytes) : Bytes := bs.takeWhile (· != 0)

def semicolon : UInt8 := 0x3b

def isoTags : Nat → Bytes → List Bytes
  | 0, _ => []
  | fuel + 1, s => if s.isEmpty then [] else s.take 3 :: isoTags fuel (s.drop 3)

/-- The codes of a list that separates them by semicolons, as the loops over such a list meet them. -/
def rfcTags : Nat → Bytes → List Bytes
  | 0, _ => []
  | fuel + 1, s =>
    if s.isEmpty then []
    else
      let s := s.dropWhile (· == semicolon)
      let tag := s.takeWhile (· != semicolon)
      tag :: rfcTags fuel (s.drop tag.length)

def tagsOf (iso639Language : Bool) (supported : Bytes) : List Bytes :=
  let s := asciiStr supported
  if iso639Language then isoTags s.length s else rfcTags s.length s

/-- `GetIndexFromSupportedLangCodes`, which returns 0 for a language that is not in the list. -/
def getIndexFromSupportedLangCodes (supported lang : Bytes) (iso639Language : Bool) : Nat :=
  let lang := if iso639Language then (asciiStr lang).take 3 else asciiStr lang
  let tags := tagsOf iso639Language supported
  if lang ∈ tags then tags.idxOf lang else 0

def rfcLangAt : Nat → Bytes → Nat → Option Bytes
  | 0, _, _ => none
  | fuel + 1, s, index =>
    let tag := s.takeWhile (· != semicolon)
    let rest := s.drop tag.length
    match index with
    | 0 => some tag
    | index + 1 => if rest.isEmpty then none else rfcLangAt fuel (rest.dropWhile (· == semicolon)) index

/-- `GetLangFromSupportedLangCodes`; `none` is a null pointer. -/
def getLangFromSupportedLangCodes (supported : Bytes) (index : Nat) (iso639Language : Bool) : Option Bytes :=
  if iso639Language then some (slice (index * 3) 3 supported)
  else rfcLangAt (supported.length + 1) (asciiStr supported) index

end LeoEdk.Variable
