import CodeAtlas.Data.Leading

/-!
# Term-frequency ranking

Documents are lists of tokens. A query token that occurs in some document adds to the score of every
document: more for rare tokens, and more where the token is frequent in a short document.
-/

namespace CodeAtlas.Search.Bm25

def saturation : Float := 1.5

def lengthWeight : Float := 0.75

def floor : Float := 1.0

def rarity (count holders : Nat) : Float :=
  if holders = 0 then 0.0 else Float.log ((count + 1).toFloat / holders.toFloat)

def share (averageLength weight : Float) (token : String)
    (document : List String) : Float :=
  let frequency := (document.count token).toFloat
  let relative := 1.0 - lengthWeight + lengthWeight * document.length.toFloat / averageLength
  weight * (floor + frequency * (saturation + 1.0) / (saturation * relative + frequency))

def meanLength (corpus : List (List String)) : Float :=
  corpus.flatten.length.toFloat / corpus.length.toFloat

def scores (corpus : List (List String)) (query : List String) : List Float :=
  let average := meanLength corpus
  let weights := query.map fun token =>
    (token, rarity corpus.length (corpus.countP fun d => d.contains token))
  corpus.map fun d =>
    weights.foldl (fun total (token, weight) => total + share average weight token d) 0.0

end CodeAtlas.Search.Bm25
