import MinervaBot.Net
import MinervaBot.Unescape

/-!
# `bot_wolfram`, `bot_urban` and `bot_google`

The handlers that send what a web server answered. Each makes one request, with its arguments
escaped by curl (a parameter), and then sends one message at most; its text is made of bytes of the
response.
-/

namespace MinervaBot

open Lib

/-- What the handlers use from outside: `curl_easy_escape`, the key for WolframAlpha, and what curl
does with a URL. -/
structure WebEnv where
  escape : CString → CString
  apiKey : CString
  server : CString → CurlReply

/-- The cells of the block of a buffer. -/
def Buffer.cells (buf : Buffer) : List (Option UInt8) :=
  buf.memory.getD []

/-- The C string at the start of the cells; `none` where a read leaves the block or meets an
indeterminate byte. -/
def cellsStr (cells : List (Option UInt8)) : Option CString :=
  (readStr (cells.length + 1) cells).map CString.ofBytes

/-! ## The handlers -/

/-- `wa_handle_cmd` of `bot_wolfram`. -/
def waHandleCmd (env : WebEnv) : WebHandler := fun _ who where' args => do
  let url := vsnprintf 768 (CString.lit "https://api.wolframalpha.com/v1/result?i=" ++
    env.escape args ++ CString.lit "&appid=" ++ env.apiKey)
  match ← sendHttpRequest env.server url with
  | none => webCall (.msg where' (CString.lit "Error calling WolframAlpha API."))
  | some buf => do
    let text ← Exec.ofOption (cellsStr buf.cells)
    webCall (.msgva where' (who.nick ++ CString.lit ": " ++ text))
  return 0

/-- `N_MAX` of `bot_urban` and of `bot_google`. -/
def nMax : Nat := 400

/-- `handle_cmd` of `bot_urban`. -/
def urbanHandleCmd (env : WebEnv) : WebHandler := fun _ _ where' args => do
  let url := vsnprintf 512 (CString.lit "http://api.urbandictionary.com/v0/define?term=" ++
    env.escape args)
  match ← sendHttpRequest env.server url with
  | none => webCall (.msg where' (CString.lit "Error calling Urban Dictionary API."))
  | some buf =>
    if buf.size < 25 then webCall (.msgva where' (CString.lit "No definition found."))
    else do
      let url ← Exec.ofOption (unescapeLoop nMax [] [] (buf.cells.drop 24))
      webCall (.msgva where' (CString.lit "\x02" ++ args ++ CString.lit "\x0f: " ++
        CString.ofBytes url))
  return 0

/-- The arguments of `bot_google` taken apart: the languages, `none` for `gdansk`, and the text. -/
structure GoogleArgs where
  origLang : Option CString
  destLang : CString
  text : CString

/-- The languages at the start of the arguments. -/
def googleArgs (args : CString) : GoogleArgs :=
  let at' (i : Nat) : Option UInt8 := args.bytes[i]?
  if at' 0 ≠ some 32 ∧ (at' 1).isSome ∧ at' 1 ≠ some 32 ∧ (at' 2).isSome then
    if at' 2 = some 32 then
      { origLang := none, destLang := args.take 2, text := args.drop 3 }
    else if at' 2 = some 59 ∧ (at' 3).isSome ∧ at' 3 ≠ some 32 ∧ (at' 4).isSome ∧ at' 4 ≠ some 32 ∧
        (at' 5).isSome ∧ at' 5 = some 32 then
      { origLang := some (args.take 2), destLang := (args.drop 3).take 2, text := args.drop 6 }
    else { origLang := none, destLang := CString.lit "en", text := args }
  else { origLang := none, destLang := CString.lit "en", text := args }

/-- The loop that looks for `[` from the end of the block, at index `i`. -/
def findBracket (cells : List (Option UInt8)) : (i : Nat) → Option Nat
  | 0 => cells[0]?.join.map fun _ => 0
  | i + 1 =>
    match cells[i + 1]?.join with
    | none => none
    | some c => if c ≠ 91 then findBracket cells i else some (i + 1)

/-- `strchr(orig_lang, '"')` and the NUL written there: the string at `orig_lang` afterwards, with
the write through `NULL` where there is no quote. -/
def cutAtQuote : (cells : List (Option UInt8)) → Exec (List WebCall) (List UInt8)
  | [] => Exec.ofOption none
  | none :: _ => Exec.ofOption none
  | some c :: cells =>
    if c = 34 then pure []
    else if c = 0 then Exec.segv
    else do
      let rest ← cutAtQuote cells
      return c :: rest

/-- The language in the response. -/
def responseLang (chunk : Buffer) : Exec (List WebCall) CString := do
  let i ← Exec.ofOption (findBracket chunk.cells (chunk.size - 1))
  let lang ← cutAtQuote (chunk.cells.drop (i + 2))
  return CString.ofBytes lang

/-- `handle_cmd` of `bot_google`. -/
def googleHandleCmd (env : WebEnv) : WebHandler := fun _ _ where' args =>
  if args.length = 0 then pure 0
  else do
    let a := googleArgs args
    let url := vsnprintf 1024
      (CString.lit "https://translate.googleapis.com/translate_a/single?client=gtx&sl=" ++
        a.origLang.getD (CString.lit "auto") ++ CString.lit "&tl=" ++ a.destLang ++
        CString.lit "&dt=t&q=" ++ env.escape a.text)
    match ← sendHttpRequest env.server url with
    | none => webCall (.msg where' (CString.lit "Error fetching translation."))
    | some chunk =>
      if chunk.size < 30 then webCall (.msgva where' (CString.lit "Translation failed."))
      else do
        let url ← Exec.ofOption (unescapeLoop nMax [] [] (chunk.cells.drop 4))
        let origLang ← match a.origLang with
          | some lang => pure lang
          | none => responseLang chunk
        webCall (.msgva where' (origLang ++ CString.lit " to " ++ a.destLang ++ CString.lit ": " ++
          CString.ofBytes url))
    return 0

/-- What a call hands to `_net_raws`; a request is not sent to the server of the bot. -/
def WebCall.sent : WebCall → Option CString
  | .request _ => none
  | .msg chan message => some (ircMessage chan message)
  | .msgva chan text => some (ircMessageVa chan text)

end MinervaBot
