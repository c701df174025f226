/-
The key under which a result is cached. Its text spells out every parameter; the strings are
preceded by their length in bytes, so that the text can be taken apart in one way only. Keys are
compared by their text and carry their parameters along.
-/
import FizzService.Params

namespace FizzService

namespace CacheKey

/-- Tag of the layout of the text. -/
def layout : String := "fb1"

/-- A string behind its length in bytes. -/
def measured (s : String) : String := toString s.utf8ByteSize ++ ":" ++ s

/-- The text that spells out the given parameters. -/
def spell (p : Params) : String :=
  layout ++ "|limit=" ++ toString p.limit ++ "|nb_one=" ++ toString p.nbOne ++
    "|nb_two=" ++ toString p.nbTwo ++ "|str_one=" ++ measured p.strOne ++
    "|str_two=" ++ measured p.strTwo ++ "|format=" ++ p.format.name

end CacheKey

structure CacheKey where
  text : String
  params : Params
  text_eq : text = CacheKey.spell params
deriving Repr

namespace CacheKey

def ofParams (p : Params) : CacheKey := ⟨spell p, p, rfl⟩

@[simp] theorem ofParams_params (k : CacheKey) : ofParams k.params = k := by
  obtain ⟨_, _, rfl⟩ := k
  rfl

@[simp] theorem params_ofParams (p : Params) : (ofParams p).params = p := rfl

instance : BEq CacheKey := ⟨fun a b => a.text == b.text⟩

instance : Hashable CacheKey := ⟨fun k => hash k.text⟩

instance : ToString CacheKey := ⟨text⟩

end CacheKey

end FizzService
