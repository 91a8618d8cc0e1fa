import Atlchat.Go.Utf8
import Atlchat.Go.Strings
import Atlchat.Go.Unicode
import Atlchat.Go.Strconv
import Atlchat.Go.Split
import Atlchat.Go.ReadBack
import Atlchat.Commands
import Atlchat.Tokenizer
import Atlchat.UserMode
import Atlchat.Goroutines
import Atlchat.Join
import Atlchat.Dispatch
