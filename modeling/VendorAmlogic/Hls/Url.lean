import VendorAmlogic.Lib.CString

/-!
# URLs of a playlist

`makeUrl` of `hls_main/hls_m3uparser.c`: the URL in a playlist is made one of
its own with the URL of the playlist. There is no result where the string in
the buffer has no end.
-/

namespace VendorAmlogic.Hls

open VendorAmlogic.Lib

def maxUrlSize : Nat := 4096

/-- `strncpy` over a buffer of this size. -/
def strncpy (size : Nat) (src : List Byte) : Option (List Byte) :=
  if src.length < size then some src else none

/-- `strlcpy` into a buffer of this size. -/
def strlcpy (size : Nat) (src : List Byte) : List Byte := src.take (size - 1)

/-- The string without the part from `rest` on. -/
def before (s rest : List Byte) : List Byte := s.take (s.length - rest.length)

/-- The string up to the last slash. -/
def directory (s : List Byte) : List Byte :=
  match strrchr 0x2f s with
  | some rest => before s rest ++ [0x2f]
  | none => []

/-- The loop over `../`; `sep` is that the buffer ends with a slash. -/
def climb (size : Nat) (buf : List Byte) (sep : Bool) : List Byte → List Byte × List Byte
  | 0x2e :: 0x2e :: 0x2f :: rel =>
    if sep then
      let up := buf.dropLast
      let name := match strrchr 0x2f up with
        | some rest => rest.tail
        | none => up
      if name = bytes ".." then (strlcat size up [0x2f], 0x2e :: 0x2e :: 0x2f :: rel)
      else climb size (directory up) (strrchr 0x2f up).isSome rel
    else (buf, 0x2e :: 0x2e :: 0x2f :: rel)
  | rel => (buf, rel)

/-- `makeUrl` into a buffer with the string `buf`; `hostOf` is the host that `av_url_split` finds. -/
def makeUrl (hostOf : List Byte → List Byte) (size : Nat) (buf base rel : List Byte) :
    Option (List Byte) :=
  if startsNoCase (bytes "android:AmlogicPlayer") base ∨
      startsNoCase (bytes "DataSouce:AmlogicPlayerDataSouceProtocol") base then strncpy size rel
  else if ¬ (startsNoCase (bytes "http://") base ∨ startsNoCase (bytes "https://") base ∨
      startsNoCase (bytes "file://") base ∨ startsNoCase (bytes "/") base) then some buf
  else if startsNoCase (bytes "http://") rel ∨ startsNoCase (bytes "https://") rel then
    match strstr (bytes "127.0.0.1") rel with
    | some sep =>
      if (strstr (bytes "://") base).isSome ∧ (strstr (bytes "voole.com") base).isNone then
        let url := before rel sep ++ buf.drop (before rel sep).length
        let url := strlcat (size - url.length) url (hostOf base)
        some (strlcat (size - url.length) url (sep.drop 9))
      else strncpy size rel
    | none => strncpy size rel
  else if (strstr (bytes "://") base).isSome ∧ rel.head? = some 0x2f then
    let url := strlcpy size base
    let url := match (strstr (bytes "://") url).bind fun sep => strchr 0x2f (sep.drop 3) with
      | some sep => before url sep
      | none => url
    some (strlcat size url rel)
  else
    let absolute : Bool := match strstr (bytes "://") rel, strchr 0x3f rel with
      | some _, none => true
      | some protocol, some option => decide (protocol.length > option.length)
      | none, _ => false
    if rel.head? = some 0x2f ∨ absolute then some (strlcpy size rel)
    else
      let url := strlcpy size base
      let url := match strchr 0x3f url with
        | some option => before url option
        | none => url
      let (url, rel) := climb size (directory url) (strrchr 0x2f url).isSome rel
      some (strlcat size url rel)

example : makeUrl (fun _ => []) maxUrlSize [] (bytes "http://h/a/b/list.m3u8?x=/1")
    (bytes "../c/1.ts") = some (bytes "http://h/a/c/1.ts") := by decide +kernel

end VendorAmlogic.Hls
