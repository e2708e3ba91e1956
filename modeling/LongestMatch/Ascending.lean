namespace LongestMatch.Ascending

def insert (n : Nat) : List Nat → List Nat
  | [] => [n]
  | k :: ks => if n < k then n :: k :: ks else if n = k then k :: ks else k :: insert n ks

def insertAll (ns more : List Nat) : List Nat := more.foldl (fun ns n => insert n ns) ns

end LongestMatch.Ascending
