import Ptok.Lib.Atomic
import Ptok.Lib.Trie
import Ptok.Critnib.History
import Ptok.Critnib.Dead
import Ptok.Critnib.Present
import Ptok.Critnib.Concurrent.FindLe
import Ptok.Critnib.Concurrent.Stalled
import Ptok.Critnib.Concurrent.Sound
import Ptok.CritnibTag.Theorems
import Ptok.CritnibTag.Concurrent
import Ptok.Corr
import Ptok.Critbit.Ownership
import Ptok.Critbit.History
import Ptok.Critbit.Duplicate
import Ptok.Critbit.Concurrent.Order
import Ptok.Tcradix.Memory
import Ptok.Tcradix.Failure
import Ptok.Tcradix.Concurrent.Paired
import Ptok.Tcradix.Concurrent.Stalled
